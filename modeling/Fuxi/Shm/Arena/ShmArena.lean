import Fuxi.Mm.MemoryResource.Housed
import Fuxi.Shm.Arena.ShmDeleter

/-!
# Blocks of a `ShmArena`

An arena is the page allocator of its own memory resource: the pages are blocks of a segment.
When the segment has no block left, the resource gets a null pointer for a page and goes on
with it. The resource is a `SharedMonotonicBufferResource`, which keeps one
`ExclusiveMonotonicBufferResource` for every thread.
-/

namespace Fuxi.Shm.Arena

open Lib Mm ExclusiveMonotonicBufferResource

variable {Tid : Type*}

/-- `WritableBlock`, as far as the arena reads it. -/
structure WritableBlock where
  blockIndex : Nat
  buf : Nat

/-- `ShmArena`; `objectBlocks` are the used entries of `object_->block_index`. The last three
fields record the buffers acquired from the segment, the oversize blocks from the upstream,
and what `allocate` has returned. -/
structure ShmArena (Tid : Type*) where
  blockSize : Nat
  blockIndexTable : List Nat := []
  objectBlocks : List Nat := []
  resource : Tid → ExclusiveMonotonicBufferResource
  acquired : List Nat := []
  oversize : List OversizePage := []
  returned : List Region := []

/-- One `allocate` on the resource, with the answers of `AcquireBlockToWrite`, if it is
called, and of the upstream. -/
structure Request (Tid : Type*) where
  thread : Tid
  bytes : Nat
  alignment : Nat
  first : Option WritableBlock := none
  second : Option WritableBlock := none
  block : Nat := 0

namespace ShmArena

/-- A block is recorded in the arena and in its object. -/
def record (s : ShmArena Tid) (block : WritableBlock) : ShmArena Tid :=
  { s with
    blockIndexTable := s.blockIndexTable ++ [block.blockIndex]
    objectBlocks :=
      if s.objectBlocks.length < maxBlockNum then s.objectBlocks ++ [block.blockIndex]
      else s.objectBlocks
    acquired := block.buf :: s.acquired }

/-- `ShmArena::allocate` writes into `blocks` until it gets no block. -/
def allocate (s : ShmArena Tid) : List (Option WritableBlock) → List Nat → ShmArena Tid × List Nat
  | some block :: answers, _ :: blocks =>
    let rest := (s.record block).allocate answers blocks
    (rest.1, block.buf :: rest.2)
  | _, blocks => (s, blocks)

/-- `PageAllocator::allocate` of one page, which is null at first. -/
def allocatePage (s : ShmArena Tid) (answer : Option WritableBlock) : ShmArena Tid × Nat :=
  let served := s.allocate [answer] [0]
  (served.1, served.2.headD 0)

/-- What the resource of a thread gets from its page allocator and its upstream. -/
def answers (s : ShmArena Tid) (q : Request Tid) : Answers :=
  ⟨(s.allocatePage q.first).2, ((s.allocatePage q.first).1.allocatePage q.second).2, q.block⟩

/-- The arena after `num` calls of `PageAllocator::allocate`. -/
def acquire (s : ShmArena Tid) (q : Request Tid) : Nat → ShmArena Tid
  | 0 => s
  | 1 => (s.allocatePage q.first).1
  | _ => ((s.allocatePage q.first).1.allocatePage q.second).1

/-- `allocate` on the resource of the arena. -/
def request [DecidableEq Tid] (s : ShmArena Tid) (q : Request Tid) : ShmArena Tid :=
  let served := (s.resource q.thread).allocate q.bytes q.alignment (s.answers q)
  { s.acquire q served.2.pages.length with
    resource := Function.update s.resource q.thread served.2.resource
    oversize := served.2.blocks ++ s.oversize
    returned := ⟨served.1, q.bytes⟩ :: s.returned }

/-- An arena that `Init` has prepared. -/
def initialized (Tid : Type*) (blockSize : Nat) : ShmArena Tid where
  blockSize := blockSize
  resource := fun _ => { pageSize := blockSize }

/-- The runs of an arena with blocks of `blockSize` bytes. -/
def machine (Tid : Type*) [DecidableEq Tid] (blockSize : Nat) :
    Machine (ShmArena Tid) (Request Tid) where
  start s := s = initialized Tid blockSize
  step s q := some (s.request q)

/-- The memory that has been acquired. -/
def memory (s : ShmArena Tid) : List Region := Mm.memory s.blockSize s.acquired s.oversize

/-- Whatever is returned and is not null lies in acquired memory, and so do the arrays of
pages and oversize blocks. -/
structure NoWildPointers (s : ShmArena Tid) : Prop where
  returned : ∀ a ∈ s.returned, a.start ≠ 0 → ∃ o ∈ s.memory, a.Inside o
  pageArrays : ∀ t, ∀ a ∈ (s.resource t).lastPageArray.records sizeofPageArray,
    ∃ o ∈ s.memory, a.Inside o
  oversizePageArrays : ∀ t,
    ∀ a ∈ (s.resource t).lastOversizePageArray.records sizeofOversizePageArray,
      ∃ o ∈ s.memory, a.Inside o

/-- The invariant of a run. -/
structure Inv (blockSize : Nat) (s : ShmArena Tid) : Prop where
  size : s.blockSize = blockSize
  pageSize : ∀ t, (s.resource t).pageSize = blockSize
  housed : ∀ t, Housed (s.resource t)
  pages : ∀ t, ∀ page ∈ (s.resource t).pages, 0 < page → page ∈ s.acquired
  blocks : ∀ t, (s.resource t).blocks ⊆ s.oversize
  returned : ∀ a ∈ s.returned, a.start ≠ 0 → ∃ o ∈ s.memory, a.Inside o

/-! ## The page allocator -/

section Acquire

variable (s : ShmArena Tid) (q : Request Tid)

@[simp] theorem allocatePage_none : s.allocatePage none = (s, 0) := rfl

@[simp] theorem allocatePage_some (block : WritableBlock) :
    s.allocatePage (some block) = (s.record block, block.buf) := rfl

/-- A call of the page allocator yields null or a buffer that has been acquired. -/
theorem allocatePage_spec (answer : Option WritableBlock) :
    (s.allocatePage answer).1.blockSize = s.blockSize ∧
      s.acquired ⊆ (s.allocatePage answer).1.acquired ∧
        (0 < (s.allocatePage answer).2 →
          (s.allocatePage answer).2 ∈ (s.allocatePage answer).1.acquired) := by
  cases answer with
  | none => exact ⟨rfl, fun _ => id, fun pos => absurd pos (Nat.lt_irrefl 0)⟩
  | some block => exact ⟨rfl, List.subset_cons_self .., fun _ => List.mem_cons_self⟩

/-- The object lists the first blocks of the arena. -/
theorem objectBlocks_acquire (num : Nat) (h : s.objectBlocks = s.blockIndexTable.take maxBlockNum) :
    (s.acquire q num).objectBlocks = (s.acquire q num).blockIndexTable.take maxBlockNum := by
  have page : ∀ {s : ShmArena Tid} (answer : Option WritableBlock),
      s.objectBlocks = s.blockIndexTable.take maxBlockNum →
        (s.allocatePage answer).1.objectBlocks =
          (s.allocatePage answer).1.blockIndexTable.take maxBlockNum := by
    intro s answer h
    cases answer with
    | none => exact h
    | some block =>
      simp only [allocatePage_some, record, h, List.length_take, List.take_append]
      split_ifs with room
      · rw [List.take_of_length_le (l := [block.blockIndex]) (by simp; omega)]
      · rw [Nat.sub_eq_zero_of_le (by omega)]
        simp
  unfold acquire
  split
  · exact h
  · exact page _ h
  · exact page _ (page _ h)

theorem acquire_spec (num : Nat) :
    (s.acquire q num).blockSize = s.blockSize ∧ s.acquired ⊆ (s.acquire q num).acquired := by
  obtain ⟨size, grows, -⟩ := s.allocatePage_spec q.first
  obtain ⟨size', grows', -⟩ := (s.allocatePage q.first).1.allocatePage_spec q.second
  unfold acquire
  split
  · exact ⟨rfl, fun _ => id⟩
  · exact ⟨size, grows⟩
  · exact ⟨size'.trans size, fun _ mem => grows' (grows mem)⟩

end Acquire

/-! ## Runs -/

/-- The pages and blocks of a resource have been acquired. -/
theorem held_subset {s : ShmArena Tid} {r : ExclusiveMonotonicBufferResource}
    (size : r.pageSize = s.blockSize) (pages : ∀ page ∈ r.pages, 0 < page → page ∈ s.acquired)
    (blocks : r.blocks ⊆ s.oversize) : r.held ⊆ s.memory := by
  rw [held, memory, size]
  refine memory_subset (fun page mem => ?_) blocks
  obtain ⟨mem, pos⟩ := List.mem_filter.mp mem
  exact pages page mem (of_decide_eq_true pos)

/-- A request changes the resource of its thread and no other one. -/
theorem request_resource [DecidableEq Tid] (s : ShmArena Tid) (q : Request Tid) (t : Tid) :
    (s.request q).resource t = if t = q.thread then
      ((s.resource q.thread).allocate q.bytes q.alignment (s.answers q)).2.resource
    else s.resource t :=
  Function.update_apply ..

/-- The resource of the thread does not take the null pointer for a page, and no sum of sizes
wraps around. -/
def grounded (s : ShmArena Tid) (q : Request Tid) (_ : ShmArena Tid) : Prop :=
  Grounded (s.resource q.thread) q.bytes q.alignment (s.answers q)

namespace Inv

variable {blockSize : Nat} {s : ShmArena Tid}

theorem noWildPointers (h : Inv blockSize s) : NoWildPointers s where
  returned := h.returned
  pageArrays t a mem := by
    obtain ⟨page, mem, pos, inside⟩ := (h.housed t).pageArrays.records mem
    refine ⟨⟨page, s.blockSize⟩, ?_, ?_⟩
    · exact List.mem_append_left _ (List.mem_map_of_mem (h.pages t page mem pos))
    · rw [h.size, ← h.pageSize t]
      exact inside
  oversizePageArrays t a mem := by
    obtain ⟨block, mem, inside⟩ := (h.housed t).oversizePageArrays.records mem
    exact ⟨block.region, List.mem_append_right _ (List.mem_map_of_mem (h.blocks t mem)), inside⟩

variable [DecidableEq Tid]

/-- The pages of a request have been acquired. -/
theorem acquired (q : Request Tid) {page : Nat}
    (mem : page ∈ ((s.resource q.thread).allocate q.bytes q.alignment (s.answers q)).2.pages)
    (pos : 0 < page) : page ∈ (s.request q).acquired := by
  obtain ⟨-, -, first⟩ := s.allocatePage_spec q.first
  obtain ⟨-, grows, second⟩ := (s.allocatePage q.first).1.allocatePage_spec q.second
  have pages := allocate_pages (s.resource q.thread) q.bytes q.alignment (s.answers q)
  simp only [ShmArena.request]
  generalize ((s.resource q.thread).allocate q.bytes q.alignment (s.answers q)).2.pages = taken
    at mem pages ⊢
  obtain rfl | rfl | rfl := pages
  · cases mem
  · obtain rfl := List.mem_singleton.mp mem
    exact first pos
  · obtain rfl | mem := List.mem_cons.mp mem
    · exact second pos
    · obtain rfl := List.mem_singleton.mp mem
      exact grows (first pos)

/-- One request. -/
theorem request (h : Inv blockSize s) (large : sizeofPageArray ≤ blockSize) {q : Request Tid}
    (ok : Grounded (s.resource q.thread) q.bytes q.alignment (s.answers q)) :
    Inv blockSize (s.request q) := by
  have takes := (s.resource q.thread).allocate_takes q.bytes q.alignment (s.answers q)
  obtain ⟨housed, placed⟩ := (h.housed q.thread).allocate (by rw [h.pageSize]; exact large) ok
  obtain ⟨size, grows⟩ := s.acquire_spec q
    ((s.resource q.thread).allocate q.bytes q.alignment (s.answers q)).2.pages.length
  have same : (s.request q).blockSize = s.blockSize := size
  have pages : ∀ page ∈
      ((s.resource q.thread).allocate q.bytes q.alignment (s.answers q)).2.resource.pages,
      0 < page → page ∈ (s.request q).acquired := by
    intro page mem pos
    rw [takes.pages, List.mem_append] at mem
    exact mem.elim (fun new => acquired q new pos) fun old => grows (h.pages _ page old pos)
  have blocks :
      ((s.resource q.thread).allocate q.bytes q.alignment (s.answers q)).2.resource.blocks ⊆
        (s.request q).oversize := by
    rw [takes.blocks]
    exact List.append_subset.mpr ⟨List.subset_append_left .., fun _ mem =>
      List.mem_append_right _ (h.blocks _ mem)⟩
  have pageSize := takes.pageSize.trans (h.pageSize q.thread)
  refine ⟨same.trans h.size, fun t => ?_, fun t => ?_, fun t => ?_, fun t => ?_, ?_⟩
  · rw [request_resource]
    split_ifs
    · exact pageSize
    · exact h.pageSize t
  · rw [request_resource]
    split_ifs
    · exact housed
    · exact h.housed t
  · rw [request_resource]
    split_ifs
    · exact pages
    · exact fun page mem pos => grows (h.pages t page mem pos)
  · rw [request_resource]
    split_ifs
    · exact blocks
    · exact fun block mem => List.mem_append_right _ (h.blocks t mem)
  · refine List.forall_mem_cons.mpr ⟨fun nonnull => ?_, fun a mem nonnull => ?_⟩
    · obtain ⟨o, mem, inside⟩ := placed nonnull
      refine ⟨o, held_subset ?_ pages blocks mem, inside⟩
      rw [pageSize, same, h.size]
    · obtain ⟨o, mem, inside⟩ := h.returned a mem nonnull
      refine ⟨o, ?_, inside⟩
      rw [memory, same]
      exact memory_subset grows (List.subset_append_right ..) mem

end Inv

variable [DecidableEq Tid] {blockSize : Nat} {s : ShmArena Tid}

/-- In every run in which the resources stay grounded, they return no wild pointer and place
no array outside of acquired memory. -/
theorem noWildPointers_of_reach (large : sizeofPageArray ≤ blockSize)
    (h : (machine Tid blockSize).Reach grounded s) : NoWildPointers s := by
  have inv : Inv blockSize s := by
    refine h.inv ?_ fun s q s' inv hs ok => ?_
    · rintro s rfl
      refine ⟨rfl, fun _ => rfl, fun _ => ⟨fun h => absurd rfl h, trivial, ?_⟩, ?_, ?_, ?_⟩
      · exact fun _ => nofun
      · exact fun _ _ => nofun
      · exact fun _ _ => nofun
      · exact fun _ => nofun
    · cases hs
      exact inv.request large ok
  exact inv.noWildPointers

/-- In every run the object lists the first blocks of the arena. -/
theorem objectBlocks_of_reach (h : (machine Tid blockSize).Reach Machine.free s) :
    s.objectBlocks = s.blockIndexTable.take maxBlockNum := by
  refine h.inv (P := fun s => s.objectBlocks = s.blockIndexTable.take maxBlockNum) ?_ ?_
  · rintro s rfl
    rfl
  · rintro s q s' inv hs -
    cases hs
    exact s.objectBlocks_acquire q _ inv

instance (s s' : ShmArena Tid) (q : Request Tid) : Decidable (grounded s q s') :=
  inferInstanceAs (Decidable (Grounded ..))

instance (a o : Region) : Decidable (a.Inside o) := inferInstanceAs (Decidable (_ ∧ _))

/-- A first block, no block for a request that fills a whole one, and a second block. -/
def wholeBlockFails : List (Request Nat) :=
  [⟨0, 100, 8, some ⟨0, 65536⟩, none, 0⟩, ⟨0, 4096, 8, none, none, 0⟩,
    ⟨0, 8, 8, some ⟨1, 69632⟩, none, 0⟩]

/-- The request without a block returns null, and the next one lies in the second block. -/
theorem noWildPointers_of_reach_wholeBlockFails :
    ∃ s, (machine Nat 4096).run (initialized Nat 4096) wholeBlockFails = some s ∧
      s.returned = [⟨69632, 8⟩, ⟨0, 4096⟩, ⟨65536, 100⟩] ∧ NoWildPointers s := by
  have along : (machine Nat 4096).Along grounded (initialized Nat 4096) wholeBlockFails := by
    decide +kernel
  have seen : ((machine Nat 4096).run (initialized Nat 4096) wholeBlockFails).map
      (fun s => s.returned) = some [⟨69632, 8⟩, ⟨0, 4096⟩, ⟨65536, 100⟩] := by decide +kernel
  obtain ⟨s, run, reach, seen⟩ := Machine.Reach.of_along_seen (.start rfl) along seen
  exact ⟨s, run, seen, noWildPointers_of_reach (by decide) reach⟩

/-- A first block, no block for a request that leaves room in one, and a small request. -/
def partBlockFails : List (Request Nat) :=
  [⟨0, 100, 8, some ⟨0, 65536⟩, none, 0⟩, ⟨0, 4000, 8, none, none, 0⟩,
    ⟨0, 8, 8, none, none, 0⟩]

/-- The small request is served behind the null pointer. -/
theorem allocate_wild : ∃ s, (machine Nat 4096).Reach Machine.free s ∧ ¬NoWildPointers s := by
  have seen : ((machine Nat 4096).run (initialized Nat 4096) partBlockFails).map
      (fun s => (s.returned.head?, s.memory)) = some (some ⟨4000, 8⟩, [⟨65536, 4096⟩]) := by
    decide +kernel
  obtain ⟨s, run, eq⟩ := Option.map_eq_some_iff.mp seen
  simp only [Prod.mk.injEq] at eq
  refine ⟨s, .of_run (.start rfl) run, fun fine => ?_⟩
  obtain ⟨o, mem, inside⟩ := fine.returned _ (List.mem_of_head? eq.1) (by decide)
  rw [eq.2, List.mem_singleton] at mem
  subst mem
  exact absurd inside (by decide)

end ShmArena

end Fuxi.Shm.Arena
