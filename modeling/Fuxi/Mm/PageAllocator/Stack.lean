import Fuxi.Lib.Supplier
import Fuxi.Mm.PageAllocator.Batch
import Fuxi.Mm.PageAllocator.Conserved

/-!
# Stacks of page allocators

Page allocators are put on top of each other: caches, prefetching ones and counting ones in any
order, and an allocator at the bottom that gets its pages from `operator new`. Each of them is a
client of the one below.
-/

namespace Fuxi.Mm

open Base Lib

universe u

variable {Page : Type u} {σ : Type*}

/-- A number for each type that has thread ids of its own: the slots of `BatchPageAllocator` and
the cache lines of `ConcurrentAdder`. -/
structure PerType where
  slot : Nat
  cacheLine : Nat
  deriving DecidableEq

/-- The ids of a thread are among those that have been given out. -/
def PerType.Below (ends ids : PerType) : Prop :=
  ids.slot < ends.slot ∧ ids.cacheLine < ends.cacheLine

/-- Each type has given out at most `num` ids. -/
def PerType.Within (num : Nat) (ends : PerType) : Prop := ends.slot ≤ num ∧ ends.cacheLine ≤ num

instance (ends ids : PerType) : Decidable (ends.Below ids) := inferInstanceAs (Decidable (_ ∧ _))

instance (num : Nat) (ends : PerType) : Decidable (ends.Within num) :=
  inferInstanceAs (Decidable (_ ∧ _))

/-- `NewDeletePageAllocator`: the pages that it has got from `operator new` and not deleted, and
the pages that `operator new` returns next. -/
structure NewDeletePageAllocator (Page : Type u) where
  pageSize : Nat
  live : Multiset Page
  fresh : Nat → Page

namespace NewDeletePageAllocator

/-- An allocator after `set_page_size`. -/
def setPageSize (pageSize : Nat) (fresh : Nat → Page) : NewDeletePageAllocator Page :=
  ⟨bitCeil pageSize, 0, fresh⟩

/-- `allocate` and `deallocate`; only what `operator new` has returned can be deleted. -/
def supplier [DecidableEq Page] : Supplier (NewDeletePageAllocator Page) PerType Page where
  give _ num s :=
    let pages := (List.range num).map s.fresh
    some (pages, { s with live := s.live + ↑pages, fresh := fun i => s.fresh (num + i) })
  take _ pages s := if ↑pages ≤ s.live then some { s with live := s.live - ↑pages } else none

end NewDeletePageAllocator

namespace CachedPageAllocator

variable [Zero Page] (S : Supplier σ PerType Page)

/-- `allocate` and `deallocate` with an upstream, which is asked for one page at a time. -/
def supplier : Supplier (CachedPageAllocator Page × σ) PerType Page where
  give thread num s :=
    (s.1.allocate num (S.upcoming thread s.2)).bind fun done =>
      (gather (S.give thread 1) done.obtained.length s.2).map fun got =>
        (done.pages, done.allocator, got.2)
  take thread pages s :=
    (s.1.deallocate pages).bind fun done =>
      (S.takeEach thread done.givenBack s.2).map fun upstream => (done.allocator, upstream)

end CachedPageAllocator

namespace BatchPageAllocator

variable [Zero Page] (S : Supplier σ PerType Page)

/-- `allocate` of one page with an upstream, which is asked for a whole batch. -/
def allocateFrom (thread : PerType) (s : BatchPageAllocator Page × σ) :
    Option (List Page × (BatchPageAllocator Page × σ)) :=
  let batch := S.give thread s.1.batchSize s.2
  (s.1.allocate thread.slot fun i => (batch.bind fun got => got.1[i]?).getD 0).bind fun done =>
    match done.obtained with
    | [] => some ([done.page], done.allocator, s.2)
    | _ :: _ => batch.map fun got => ([done.page], done.allocator, got.2)

/-- `allocate` and `deallocate` with an upstream. -/
def supplier : Supplier (BatchPageAllocator Page × σ) PerType Page where
  give thread := gather (allocateFrom S thread)
  take thread pages s := (S.take thread pages s.2).map fun upstream => (s.1, upstream)

omit [Zero Page] in
/-- `~BatchPageAllocator`: the upstream takes back what each slot has. -/
def destroyTo (threadEnd : Nat) (thread : PerType) (s : BatchPageAllocator Page × σ) : Option σ :=
  (s.1.cache.each threadEnd).foldlM
    (fun upstream slot =>
      if slot.nextPage < slot.buffer.length then S.take thread slot.rest upstream
      else some upstream)
    s.2

end BatchPageAllocator

/-- `CountingPageAllocator`: the values of its adder, one for each id that a thread has for the
cache lines. Blocks of the storage that only other adders have needed are left out. -/
structure CountingPageAllocator (Page : Type u) : Type u where
  allocatePageNum : EnumerableThreadLocal (BitVec 64)

namespace CountingPageAllocator

/-- `_allocate_page_num << value`. -/
def count (a : CountingPageAllocator Page) (thread : PerType) (value : BitVec 64) :
    CountingPageAllocator Page :=
  ⟨a.allocatePageNum.setLocal thread.cacheLine (· + value)⟩

/-- `allocated_page_num`; `threadEnd` is `ThreadId::end`. -/
def allocatedPageNum (a : CountingPageAllocator Page) (threadEnd : Nat) : Int :=
  max 0 (a.allocatePageNum.each threadEnd).sum.toInt

/-- `allocate` and `deallocate` with an upstream. -/
def supplier (S : Supplier σ PerType Page) :
    Supplier (CountingPageAllocator Page × σ) PerType Page where
  give thread num s :=
    (S.give thread num s.2).map fun got => (got.1, s.1.count thread (.ofNat 64 num), got.2)
  take thread pages s :=
    (S.take thread pages s.2).map fun upstream =>
      (s.1.count thread (-.ofNat 64 pages.length), upstream)

end CountingPageAllocator

/-! ## Stacks -/

/-- The allocators that have an upstream, as they are set up before they are used. -/
inductive Layer
  | cached (freePageCapacity : Nat)
  | batch (batchSize : Nat) (pos : 0 < batchSize)
  | counting

namespace Layer

/-- The class of an allocator. -/
def Own (Page : Type u) : Layer → Type u
  | .cached _ => CachedPageAllocator Page
  | .batch _ _ => BatchPageAllocator Page
  | .counting => CountingPageAllocator Page

/-- A new allocator. -/
def new (Page : Type u) [Zero Page] : (k : Layer) → k.Own Page
  | .cached freePageCapacity => CachedPageAllocator.setFreePageCapacity 0 freePageCapacity
  | .batch batchSize _ => (BatchPageAllocator.empty Page).setBatchSize batchSize
  | .counting => ⟨0, fun _ => 0⟩

/-- The pages in an allocator. -/
def inside : (k : Layer) → k.Own Page → Multiset Page
  | .cached _, a => ↑(BoundedQueue.contents (CachedPageAllocator.freePages a))
  | .batch _ _, a => BatchPageAllocator.pending a
  | .counting, _ => 0

def supplier [Zero Page] (S : Supplier σ PerType Page) :
    (k : Layer) → Supplier (k.Own Page × σ) PerType Page
  | .cached _ => CachedPageAllocator.supplier S
  | .batch _ _ => BatchPageAllocator.supplier S
  | .counting => CountingPageAllocator.supplier S

/-- The destructor; `ends` are the numbers of ids that threads have got. -/
def destroy (S : Supplier σ PerType Page) (ends thread : PerType) :
    (k : Layer) → k.Own Page × σ → Option σ
  | .cached _, (a, upstream) => S.takeEach thread (CachedPageAllocator.destroy a).givenBack upstream
  | .batch _ _, s => BatchPageAllocator.destroyTo S (u16 ends.slot) thread s
  | .counting, (_, upstream) => some upstream

/-- What a counting allocator reads, when its clients have so many pages. -/
def Reads (ends : PerType) (clients : Nat) : (k : Layer) → k.Own Page → Prop
  | .cached _, _ => True
  | .batch _ _, _ => True
  | .counting, a =>
    clients < 2 ^ 63 → CountingPageAllocator.allocatedPageNum a (u16 ends.cacheLine) = clients

end Layer

/-- `PageHeap`: a count, a cache, and the allocator at the bottom. That it counts after the call
of the cache, and not before it, makes no difference to a whole call. -/
def pageHeap (freePageCapacity : Nat) : List Layer := [.counting, .cached freePageCapacity]

/-- The objects of a stack, from the top to the bottom. -/
def PageStack (Page : Type u) : List Layer → Type u
  | [] => NewDeletePageAllocator Page
  | k :: layers => k.Own Page × PageStack Page layers

namespace PageStack

variable {layers : List Layer}

/-- A new stack. -/
def new [Zero Page] (base : NewDeletePageAllocator Page) :
    (layers : List Layer) → PageStack Page layers
  | [] => base
  | k :: layers => (k.new Page, new base layers)

def supplier [Zero Page] [DecidableEq Page] :
    (layers : List Layer) → Supplier (PageStack Page layers) PerType Page
  | [] => NewDeletePageAllocator.supplier
  | k :: layers => k.supplier (supplier layers)

/-- The allocator at the bottom. -/
def base : {layers : List Layer} → PageStack Page layers → NewDeletePageAllocator Page
  | [], s => s
  | _ :: _, s => base s.2

/-- `page_size`. -/
def pageSize : {layers : List Layer} → PageStack Page layers → Nat
  | [], s => NewDeletePageAllocator.pageSize s
  | _ :: _, s => pageSize s.2

/-- The pages in all allocators of a stack. -/
def inside : {layers : List Layer} → PageStack Page layers → Multiset Page
  | [], _ => 0
  | k :: _, s => k.inside s.1 + inside s.2

/-- A thread runs the destructors, from the top to the bottom; the pages that are left are the
clients'. -/
def destroy [Zero Page] [DecidableEq Page] (ends thread : PerType) :
    {layers : List Layer} → PageStack Page layers → Option (NewDeletePageAllocator Page)
  | [], s => some s
  | k :: layers, s => (k.destroy (supplier layers) ends thread s).bind (destroy ends thread)

/-- Every counting allocator reads how many pages are with its clients, the allocators above it
among them. -/
def Counts (ends : PerType) : {layers : List Layer} → Multiset Page → PageStack Page layers → Prop
  | [], _, _ => True
  | k :: _, out, s => k.Reads ends out.card s.1 ∧ Counts ends (out + k.inside s.1) s.2

end PageStack

/-! ## What each class keeps -/

section Contracts

variable {ends : PerType} {S : Supplier σ PerType Page} {up : Multiset Page → σ → Prop}

namespace BatchPageAllocator

variable {a : BatchPageAllocator Page} {threads : Nat}

/-- A configured allocator whose pages are in the slots of thread ids below a bound. -/
structure Serves (threads : Nat) (a : BatchPageAllocator Page) : Prop where
  sized : a.Sized
  configured : a.configured = true
  blocks : a.cache.blockNum ≤ (threads + 127) / 128
  beyond : ∀ i < a.cache.size, threads ≤ i → (a.cache.element i).rest = []

/-- `for_each` visits all slots that have pages. -/
theorem Serves.visits (h : a.Serves threads) (few : threads ≤ 65408) :
    ↑(a.destroy (u16 threads)) = a.pending := by
  obtain ⟨left, pending, none_left⟩ := a.pending_eq (u16 threads)
  have blocks := h.blocks
  have none : left = 0 := by
    refine none_left.mpr fun i lt visited => h.beyond i lt ?_
    rw [EnumerableThreadLocal.visited] at visited
    rw [EnumerableThreadLocal.size_eq] at visited lt
    simp only [u16] at visited
    omega
  rw [pending, none, add_zero]

/-- The destructor gives the upstream all pages that are in the slots. -/
theorem Serves.destroyTo (serves : a.Serves threads) (few : threads ≤ 65408)
    (h : S.Contract ends.Below up) {thread : PerType} (known : ends.Below thread)
    {out : Multiset Page} {upstream : σ} (has : up (out + a.pending) upstream) :
    ∃ t, destroyTo S (u16 threads) thread (a, upstream) = some t ∧ up out t := by
  rw [← serves.visits few, destroy] at has
  unfold BatchPageAllocator.destroyTo
  generalize a.cache.each (u16 threads) = slots at has
  induction slots generalizing upstream with
  | nil => exact ⟨upstream, rfl, by simpa using has⟩
  | cons slot slots ih =>
    rw [List.flatMap_cons, ← Multiset.coe_add, add_comm (slot.rest : Multiset Page),
      ← add_assoc] at has
    by_cases ready : slot.nextPage < slot.buffer.length
    · obtain ⟨t, ret, has⟩ := h.take known slot.rest has
      obtain ⟨u, rest, none⟩ := ih has
      exact ⟨u, by simpa [ready, ret] using rest, none⟩
    · have empty : slot.rest = [] := List.drop_of_length_le (not_lt.mp ready)
      rw [empty, Multiset.coe_nil, add_zero] at has
      obtain ⟨u, rest, none⟩ := ih has
      exact ⟨u, by simpa [ready] using rest, none⟩

variable [Zero Page]

theorem Serves.allocate (h : a.Serves threads) (few : threads ≤ 65536) {thread : Nat}
    (known : thread < threads) (fresh : Nat → Page) : ∃ r, a.allocate thread fresh = some r ∧
      r.allocator.Serves threads ∧ {r.page} + r.allocator.pending = a.pending + ↑r.obtained := by
  obtain ⟨r, ret, sized, moved⟩ := h.sized.allocate h.configured (known.trans_le few) fresh
  obtain ⟨slot, eq⟩ := allocate_setSlot ret
  refine ⟨r, ret, ⟨sized, ?_, ?_, fun i lt le => ?_⟩, moved⟩ <;> simp only [eq]
  · exact h.configured
  · have blocks := h.blocks
    have := EnumerableThreadLocal.expectBlockNum_ensure (known.trans_le few)
    simp only [setSlot, ensure, EnumerableThreadLocal.ensure, this]
    omega
  · have other : i ≠ thread := by omega
    simp only [setSlot, Function.update_of_ne other, ensure]
    split_ifs with old
    · exact h.beyond i old le
    · exact rest_construct

/-- A batch is got as a whole, or not at all. -/
theorem allocate_obtained {thread : Nat} {fresh : Nat → Page} {r : BatchAllocated Page}
    (ret : a.allocate thread fresh = some r) :
    r.obtained = [] ∨ r.obtained = (List.range a.batchSize).map fresh := by
  simp only [BatchPageAllocator.allocate] at ret
  split_ifs at ret with ready fits
  · cases ret
    exact Or.inl rfl
  · split at ret
    · cases ret
    · cases ret
      exact Or.inr rfl

/-- One page more is with the clients. -/
theorem allocateFrom_spec (few : ends.slot ≤ 65536) (h : S.Contract ends.Below up)
    {thread : PerType} (known : ends.Below thread) (out : Multiset Page)
    (s : BatchPageAllocator Page × σ) (has : s.1.Serves ends.slot ∧ up (out + s.1.pending) s.2) :
    ∃ page t, allocateFrom S thread s = some ([page], t) ∧
      t.1.Serves ends.slot ∧ up (out + {page} + t.1.pending) t.2 := by
  obtain ⟨serves, has⟩ := has
  obtain ⟨pages, upstream, ret, length, more⟩ := h.give known has s.1.batchSize
  obtain ⟨r, done, serves, moved⟩ := serves.allocate few known.1 fun i => pages[i]?.getD 0
  have whole : (List.range s.1.batchSize).map (fun i => pages[i]?.getD 0) = pages :=
    List.ext_getElem (by simp [length]) fun i lt lt' => by simp [lt']
  cases some_got : r.obtained with
  | nil =>
    have called : allocateFrom S thread s = some ([r.page], r.allocator, s.2) := by
      simp [allocateFrom, ret, done, some_got]
    refine ⟨r.page, (r.allocator, s.2), called, serves, ?_⟩
    rwa [add_assoc, moved, some_got, Multiset.coe_nil, add_zero]
  | cons page got =>
    have called : allocateFrom S thread s = some ([r.page], r.allocator, upstream) := by
      simp [allocateFrom, ret, done, some_got]
    refine ⟨r.page, (r.allocator, upstream), called, serves, ?_⟩
    have all := (allocate_obtained done).resolve_left (by simp [some_got])
    rwa [add_assoc, moved, all, whole, ← add_assoc]

/-- A prefetching allocator gets the pages in its slots and those of its clients. -/
theorem contract (few : ends.slot ≤ 65536) (h : S.Contract ends.Below up) :
    (supplier S).Contract ends.Below fun out s =>
      s.1.Serves ends.slot ∧ up (out + s.1.pending) s.2 where
  give known has num := gather_spec (allocateFrom_spec few h known) has num
  take {_ out s} known pages has := by
    obtain ⟨serves, has⟩ := has
    rw [add_right_comm] at has
    obtain ⟨t, ret, has⟩ := h.take known pages has
    exact ⟨(s.1, t), by simp [supplier, ret], serves, has⟩

end BatchPageAllocator

namespace CachedPageAllocator

variable [Zero Page]

/-- A cache gets the pages in it and those of its clients. -/
theorem contract (h : S.Contract ends.Below up) :
    (supplier S).Contract ends.Below fun out s =>
      s.1.freePages.Holds s.1.freePages.contents ∧ up (out + ↑s.1.freePages.contents) s.2 where
  give {thread out s} known has num := by
    obtain ⟨holds, has⟩ := has
    obtain ⟨r, ret, holds', -, obtained, pages, -⟩ := allocate_eq holds num (S.upcoming thread s.2)
    generalize s.1.freePages.contents = xs at holds has obtained pages holds'
    obtain ⟨new, upstream, got, length, more⟩ := h.gather known has (num - xs.length)
    rw [h.gather_upcoming known has got] at obtained
    refine ⟨r.pages, (r.allocator, upstream), ?_, ?_, ?_, ?_⟩
    · simp [supplier, ret, obtained, length, got]
    · rw [pages, List.length_append, List.length_take, obtained, length]
      omega
    · rwa [holds'.contents_eq]
    · rw [PageRun.split xs num] at more
      rw [holds'.contents_eq, pages, obtained, ← Multiset.coe_add]
      convert more using 1
      abel
  take {_ out s} known pages has := by
    obtain ⟨holds, has⟩ := has
    obtain ⟨r, ret, holds', -, givenBack, -⟩ := deallocate_eq holds pages
    generalize s.1.freePages.contents = xs at holds has givenBack holds'
    generalize min pages.length s.1.freePages.capacity = n at givenBack holds'
    generalize n - (s.1.freePages.capacity - xs.length) = k at givenBack holds'
    have moved : out + ↑pages + ↑xs =
        out + ↑(xs.drop k ++ pages.take n) + (r.givenBack : Multiset Page) := by
      rw [givenBack, PageRun.split xs k, PageRun.split pages n, ← Multiset.coe_add,
        ← Multiset.coe_add]
      abel
    obtain ⟨upstream, back, has⟩ := h.takeEach known r.givenBack (moved ▸ has)
    refine ⟨(r.allocator, upstream), by simp [supplier, ret, back], ?_, ?_⟩
    · rwa [holds'.contents_eq]
    · rwa [holds'.contents_eq]

omit [Zero Page] in
/-- The destructor gives the upstream all pages that are in the cache. -/
theorem destroyTo (a : CachedPageAllocator Page) (holds : a.freePages.Holds a.freePages.contents)
    (h : S.Contract ends.Below up) {thread : PerType} (known : ends.Below thread)
    {out : Multiset Page} {upstream : σ} (has : up (out + ↑a.freePages.contents) upstream) :
    ∃ t, S.takeEach thread a.destroy.givenBack upstream = some t ∧ up out t := by
  rw [(destroy_eq holds).2.2.1]
  exact h.takeEach known _ has

end CachedPageAllocator

namespace CountingPageAllocator

variable {a : CountingPageAllocator Page} {num : Nat}

/-- The values add up to a number, and only thread ids below a bound have one. -/
structure Adds (threads : Nat) (num : BitVec 64) (a : CountingPageAllocator Page) : Prop where
  blocks : a.allocatePageNum.blockNum ≤ (threads + 127) / 128
  unused : ∀ i, threads ≤ i ∨ a.allocatePageNum.size ≤ i → a.allocatePageNum.element i = 0
  sum : total (Finset.range threads) id a.allocatePageNum.element = num

/-- A thread adds to its own value. -/
theorem Adds.count {num : BitVec 64} (h : a.Adds ends.cacheLine num) (few : ends.cacheLine ≤ 65536)
    {thread : PerType} (known : ends.Below thread) (value : BitVec 64) :
    (a.count thread value).Adds ends.cacheLine (num + value) := by
  have id := known.2
  have blocks := h.blocks
  have expected := EnumerableThreadLocal.expectBlockNum_ensure (id.trans_le few)
  refine ⟨?_, fun i none => ?_, ?_⟩
  · simp only [CountingPageAllocator.count, EnumerableThreadLocal.setLocal,
      EnumerableThreadLocal.ensure, expected]
    omega
  · simp only [CountingPageAllocator.count, EnumerableThreadLocal.setLocal,
      EnumerableThreadLocal.ensure, EnumerableThreadLocal.size_eq, expected] at none ⊢
    rw [Function.update_of_ne (by omega)]
    refine h.unused i ?_
    rw [EnumerableThreadLocal.size_eq]
    omega
  · rw [← h.sum]
    exact total_update_add (Finset.mem_range.mpr id) rfl

/-- `value` sums up what all threads have added. -/
theorem Adds.value {threads : Nat} {num : BitVec 64} (h : a.Adds threads num)
    (few : threads ≤ 65408) : (a.allocatePageNum.each (u16 threads)).sum = num := by
  have visits : (a.allocatePageNum.each (u16 threads)).sum =
      ∑ i ∈ Finset.range (a.allocatePageNum.visited (u16 threads)), a.allocatePageNum.element i :=
    rfl
  have blocks := h.blocks
  rw [visits, ← h.sum, total]
  refine Finset.sum_subset (Finset.range_subset_range.mpr ?_) fun i _ beyond => h.unused i ?_
  · rw [EnumerableThreadLocal.visited, u16]
    omega
  · rw [Finset.mem_range, EnumerableThreadLocal.visited, EnumerableThreadLocal.size_eq] at beyond
    rw [EnumerableThreadLocal.size_eq]
    simp only [u16] at beyond
    omega

/-- Less than 2^63 pages are counted right. -/
theorem Adds.allocatedPageNum {threads : Nat} (h : a.Adds threads (.ofNat 64 num))
    (few : threads ≤ 65408) (small : num < 2 ^ 63) :
    a.allocatedPageNum (u16 threads) = num := by
  rw [CountingPageAllocator.allocatedPageNum, h.value few, BitVec.toInt_eq_toNat_bmod,
    BitVec.toNat_ofNat, Int.bmod]
  omega

/-- The adder of a counting allocator has the number of the pages that are with its clients. -/
theorem contract (few : ends.cacheLine ≤ 65536) (h : S.Contract ends.Below up) :
    (supplier S).Contract ends.Below fun out s =>
      s.1.Adds ends.cacheLine (.ofNat 64 out.card) ∧ up (out + 0) s.2 where
  give {thread out s} known has num := by
    obtain ⟨adds, has⟩ := has
    rw [add_zero] at has
    obtain ⟨pages, t, ret, length, has⟩ := h.give known has num
    refine ⟨pages, (s.1.count thread (.ofNat 64 num), t), by simp [supplier, ret], length, ?_, ?_⟩
    · rw [Multiset.card_add, Multiset.coe_card, length, BitVec.ofNat_add]
      exact adds.count few known _
    · rwa [add_zero]
  take {thread out s} known pages has := by
    obtain ⟨adds, has⟩ := has
    rw [add_zero] at has
    obtain ⟨t, ret, has⟩ := h.take known pages has
    refine ⟨(s.1.count thread (-.ofNat 64 pages.length), t), by simp [supplier, ret], ?_, ?_⟩
    · have counted := adds.count few known (-.ofNat 64 pages.length)
      rwa [Multiset.card_add, Multiset.coe_card, BitVec.ofNat_add, add_neg_cancel_right] at counted
    · rwa [add_zero]

end CountingPageAllocator

namespace Layer

/-- What an allocator keeps while its clients have the pages `out`. -/
def Keeps (ends : PerType) (out : Multiset Page) : (k : Layer) → k.Own Page → Prop
  | .cached _, a =>
    let freePages := CachedPageAllocator.freePages a
    freePages.Holds freePages.contents
  | .batch _ _, a => BatchPageAllocator.Serves ends.slot a
  | .counting, a => CountingPageAllocator.Adds ends.cacheLine (.ofNat 64 out.card) a

theorem Keeps.reads {k : Layer} {out : Multiset Page} {a : k.Own Page} (h : k.Keeps ends out a)
    (few : ends.cacheLine ≤ 65408) : k.Reads ends out.card a := by
  cases k with
  | cached freePageCapacity => trivial
  | batch batchSize pos => trivial
  | counting => exact CountingPageAllocator.Adds.allocatedPageNum h few

/-- In a new allocator there is no page. -/
theorem keeps_new [Zero Page] (k : Layer) :
    k.Keeps ends 0 (k.new Page) ∧ k.inside (k.new Page) = 0 := by
  cases k with
  | cached freePageCapacity =>
    have holds := BoundedQueue.reserveAndClear_holds (0 : Page) freePageCapacity
    have empty := holds.contents_eq
    refine ⟨?_, congrArg _ empty⟩
    rw [← empty] at holds
    exact holds
  | batch batchSize pos =>
    obtain ⟨sized, empty⟩ := BatchPageAllocator.sized_setBatchSize (a := .empty Page) pos
    exact ⟨⟨sized, rfl, Nat.zero_le _, fun i lt => absurd lt (Nat.not_lt_zero i)⟩, empty⟩
  | counting =>
    have none : total (Finset.range ends.cacheLine) id (fun _ => (0 : BitVec 64)) = 0 :=
      Finset.sum_const_zero
    exact ⟨⟨Nat.zero_le _, fun _ _ => rfl, none⟩, rfl⟩

/-- An allocator with an upstream gets the pages in it and those of its clients. -/
theorem contract [Zero Page] (few : ends.Within 65536) (h : S.Contract ends.Below up)
    (k : Layer) : (k.supplier S).Contract ends.Below fun out s =>
      k.Keeps ends out s.1 ∧ up (out + k.inside s.1) s.2 := by
  cases k with
  | cached freePageCapacity => exact CachedPageAllocator.contract h
  | batch batchSize pos => exact BatchPageAllocator.contract few.1 h
  | counting => exact CountingPageAllocator.contract few.2 h

/-- A destructor leaves the clients' pages only. -/
theorem Keeps.destroy (few : ends.slot ≤ 65408) (h : S.Contract ends.Below up) {thread : PerType}
    (known : ends.Below thread) {k : Layer} {out : Multiset Page} {s : k.Own Page × σ}
    (keeps : k.Keeps ends out s.1) (has : up (out + k.inside s.1) s.2) :
    ∃ t, k.destroy S ends thread s = some t ∧ up out t := by
  cases k with
  | cached freePageCapacity => exact CachedPageAllocator.destroyTo s.1 keeps h known has
  | batch batchSize pos => exact BatchPageAllocator.Serves.destroyTo keeps few h known has
  | counting => exact ⟨s.2, rfl, add_zero out ▸ has⟩

end Layer

end Contracts

/-! ## Runs of a stack -/

namespace PageStack

variable {ends : PerType} {size : Nat} {layers : List Layer}

/-- The clients of a stack have the pages `out`, and those of each allocator in it have the pages
in the allocators above it besides. -/
def Has (ends : PerType) (size : Nat) :
    {layers : List Layer} → Multiset Page → PageStack Page layers → Prop
  | [], out, s => NewDeletePageAllocator.live s = out ∧ NewDeletePageAllocator.pageSize s = size
  | k :: _, out, s => k.Keeps ends out s.1 ∧ Has ends size (out + k.inside s.1) s.2

/-- What one sees of it. -/
theorem Has.accounts {out : Multiset Page} {s : PageStack Page layers} (h : s.Has ends size out) :
    s.base.live = out + s.inside ∧ s.pageSize = size := by
  induction layers generalizing out with
  | nil => exact ⟨h.1.trans (add_zero out).symm, h.2⟩
  | cons k layers ih =>
    obtain ⟨-, has⟩ := h
    obtain ⟨places, pages⟩ := ih has
    exact ⟨places.trans (add_assoc ..), pages⟩

theorem Has.counts (few : ends.cacheLine ≤ 65408) {out : Multiset Page} {s : PageStack Page layers}
    (h : s.Has ends size out) : s.Counts ends out := by
  induction layers generalizing out with
  | nil => trivial
  | cons k layers ih =>
    obtain ⟨keeps, has⟩ := h
    exact ⟨keeps.reads few, ih has⟩

variable [Zero Page] [DecidableEq Page]

omit [DecidableEq Page] in
theorem base_new (b : NewDeletePageAllocator Page) (layers : List Layer) :
    (new b layers).base = b := by
  induction layers with
  | nil => rfl
  | cons k layers ih => exact ih

omit [DecidableEq Page] in
theorem has_new (fresh : Nat → Page) (layers : List Layer) :
    (new (.setPageSize size fresh) layers).Has ends (bitCeil size) 0 := by
  induction layers with
  | nil => exact ⟨rfl, rfl⟩
  | cons k layers ih =>
    have fresh_layer : k.Keeps ends 0 (k.new Page) ∧ k.inside (k.new Page) = 0 := k.keeps_new
    obtain ⟨keeps, empty⟩ := fresh_layer
    refine ⟨keeps, ?_⟩
    change Has ends _ (0 + k.inside (k.new Page)) _
    rw [empty, add_zero]
    exact ih

/-- Stacks are lawful, from the bottom up. -/
theorem contract (few : ends.Within 65536) (layers : List Layer) :
    (supplier layers : Supplier (PageStack Page layers) PerType Page).Contract ends.Below
      (Has ends size) := by
  induction layers with
  | nil =>
    refine ⟨fun {thread out s} _ has num => ?_, fun {thread out s} _ pages has => ?_⟩
    · obtain ⟨live, pageSize⟩ := has
      exact ⟨_, _, rfl, by simp, by rw [← live], pageSize⟩
    · obtain ⟨live, pageSize⟩ := has
      have le : ↑pages ≤ NewDeletePageAllocator.live s := live ▸ Multiset.le_add_left ..
      refine ⟨_, if_pos le, ?_, pageSize⟩
      simp only [live, Multiset.add_sub_cancel_right]
  | cons k layers ih => exact k.contract few ih

/-- After the destructors, the pages that have not been deleted are the clients'. -/
theorem Has.destroy (few : ends.Within 65536) (fewSlots : ends.slot ≤ 65408) {thread : PerType}
    (known : ends.Below thread) {out : Multiset Page} {s : PageStack Page layers}
    (h : s.Has ends size out) : ∃ b, s.destroy ends thread = some b ∧ b.live = out := by
  induction layers generalizing out with
  | nil => exact ⟨s, rfl, h.1⟩
  | cons k layers ih =>
    obtain ⟨keeps, has⟩ := h
    obtain ⟨t, top, has⟩ := keeps.destroy fewSlots (contract few layers) known has
    obtain ⟨b, rest, live⟩ := ih has
    exact ⟨b, by simp [PageStack.destroy, top, rest], live⟩

/-- `operator new` returns no page that has not been deleted, and calls are made by threads that
have ids. -/
def Fresh (ends : PerType) (_ : Supplier.Clients (PageStack Page layers) Page)
    (m : Supplier.Demand PerType Page) (t : Supplier.Clients (PageStack Page layers) Page) : Prop :=
  m.By ends.Below ∧ t.object.base.live.Nodup

/-- The runs of the clients of a stack with pages of a size. -/
def machine (Page : Type u) [Zero Page] [DecidableEq Page] (size : Nat) (layers : List Layer) :
    Machine (Supplier.Clients (PageStack Page layers) Page) (Supplier.Demand PerType Page) :=
  (supplier layers).clients fun s => ∃ fresh, s = new (.setPageSize size fresh) layers

/-- Each page that `operator new` has returned and that has not been deleted is with one client,
or waits once in one of the allocators. All calls return, with so many pages as have been asked
for. Every count is that of the pages which are out, as long as its sum visits all thread ids.
When the stack is destroyed, all pages are deleted but those of the clients. -/
structure Accounted (ends : PerType) (size : Nat)
    (s : Supplier.Clients (PageStack Page layers) Page) : Prop where
  places : s.object.base.live = s.held + s.object.inside
  distinct : (s.held + s.object.inside).Nodup
  pageSize : s.object.pageSize = bitCeil size
  counts : ends.cacheLine ≤ 65408 → s.object.Counts ends s.held
  allocates : ∀ thread, ends.Below thread → ∀ num, ∃ pages t,
    (supplier layers).give thread num s.object = some (pages, t) ∧ pages.length = num
  deallocates : ∀ thread, ends.Below thread → ∀ pages : List Page, ↑pages ≤ s.held →
    ((supplier layers).take thread pages s.object).isSome
  destroys : ends.slot ≤ 65408 → ∀ thread, ends.Below thread →
    ∃ b, s.object.destroy ends thread = some b ∧ b.live = s.held

/-- Pages are accounted for in every run of every stack. -/
theorem accounted (few : ends.Within 65536) {s : Supplier.Clients (PageStack Page layers) Page}
    (reach : (machine Page size layers).Reach (Fresh ends) s) : Accounted ends size s := by
  have lawful : (supplier layers : Supplier (PageStack Page layers) PerType Page).Contract
      ends.Below (Has ends (bitCeil size)) := contract few layers
  have has : s.object.Has ends (bitCeil size) s.held := by
    refine lawful.out_of_reach reach (fun o start => ?_) fun s m t side => side.1
    obtain ⟨fresh, rfl⟩ := start
    exact has_new fresh layers
  have distinct : s.object.base.live.Nodup := by
    refine reach.inv (P := fun s => s.object.base.live.Nodup) (fun s start => ?_)
      fun s m t _ _ side => side.2
    obtain ⟨⟨fresh, new⟩, -⟩ := start
    rw [new, base_new]
    exact Multiset.nodup_zero
  obtain ⟨places, pageSize⟩ := has.accounts
  refine ⟨places, places ▸ distinct, pageSize, fun few => has.counts few,
    fun thread known num => ?_, fun thread known pages le => ?_,
    fun fewSlots thread known => has.destroy few fewSlots known⟩
  · obtain ⟨pages, t, ret, length, -⟩ := lawful.give known has num
    exact ⟨pages, t, ret, length⟩
  · rw [← Multiset.sub_add_cancel le] at has
    obtain ⟨t, ret, -⟩ := lawful.take known pages has
    exact Option.isSome_of_eq_some ret

instance : (m : Supplier.Demand PerType Page) → Decidable (m.By ends.Below)
  | .give _ _ | .take _ _ => inferInstanceAs (Decidable (ends.Below _))

instance (s : Supplier.Clients (PageStack Page layers) Page) (m : Supplier.Demand PerType Page)
    (t : Supplier.Clients (PageStack Page layers) Page) : Decidable (Fresh ends s m t) :=
  inferInstanceAs (Decidable (_ ∧ _))

/-- A heap with a cache of two pages, a prefetching allocator on top of it, and a count. -/
def countedBatches : List Layer := .counting :: .batch 2 (by decide) :: pageHeap 2

/-- Two threads, whose ids for slots and cache lines differ; what the second one prefetches comes
from the cache. -/
def twoThreads : List (Supplier.Demand PerType Nat) :=
  [.give ⟨0, 1⟩ 3, .take ⟨1, 0⟩ [1, 2, 3], .give ⟨1, 0⟩ 1, .give ⟨0, 1⟩ 2]

theorem accounted_twoThreads : ∃ s, (machine Nat 4096 countedBatches).run
      ⟨new (.setPageSize 4096 (· + 1)) countedBatches, 0⟩ twoThreads = some s ∧
    Accounted ⟨2, 2⟩ 4096 s ∧ s.held = {1, 4, 5} ∧ s.object.inside = {2, 6} ∧
      @CountingPageAllocator.allocatedPageNum Nat s.object.1 2 = 3 := by
  obtain ⟨s, run, reach, seen⟩ := Machine.Reach.of_along_seen
    (.start (M := machine Nat 4096 countedBatches) ⟨⟨_, rfl⟩, rfl⟩)
    (show (machine Nat 4096 countedBatches).Along (Fresh ⟨2, 2⟩)
      ⟨new (.setPageSize 4096 (· + 1)) countedBatches, 0⟩ twoThreads by decide +kernel)
    (show ((machine Nat 4096 countedBatches).run
        ⟨new (.setPageSize 4096 (· + 1)) countedBatches, 0⟩ twoThreads).map
      (fun s => (s.held, s.object.inside,
        @CountingPageAllocator.allocatedPageNum Nat s.object.1 2)) =
          some ({1, 4, 5}, {2, 6}, 3) by decide +kernel)
  simp only [Prod.mk.injEq] at seen
  exact ⟨s, run, accounted (by decide) reach, seen⟩

end PageStack

end Fuxi.Mm
