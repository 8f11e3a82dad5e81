import Fuxi.Mm.MemoryResource.Housed

/-!
# A release gives back what was taken

The arrays that list the pages lie in those pages, and `release` walks along the arrays while
it gives the pages back. Each array is read before the page or block around it goes back, the
counter of the resource shows what is held, and what is left behaves like a new resource.
-/

namespace Fuxi.Mm

open Lib

namespace ExclusiveMonotonicBufferResource

variable {r u : ExclusiveMonotonicBufferResource} {bytes alignment : Nat}

/-! ## What is held -/

/-- The bytes of pages and blocks. -/
def heldBytes (pageSize : Nat) (pages : List Nat) (blocks : List OversizePage) : Nat :=
  ((memory pageSize pages blocks).map Region.size).sum

theorem heldBytes_append (pageSize : Nat) (pages pages' : List Nat)
    (blocks blocks' : List OversizePage) :
    heldBytes pageSize (pages ++ pages') (blocks ++ blocks') =
      heldBytes pageSize pages blocks + heldBytes pageSize pages' blocks' := by
  simp only [heldBytes, memory, List.map_append, List.sum_append]
  omega

@[simp] theorem heldBytes_nil (pageSize : Nat) : heldBytes pageSize [] [] = 0 := rfl

/-- The counter of a resource grows by what a call takes. -/
def Counts (r : ExclusiveMonotonicBufferResource) (outcome : Outcome) : Prop :=
  outcome.resource.spaceAllocated =
    u64 (r.spaceAllocated + heldBytes r.pageSize outcome.pages outcome.blocks)

theorem counts_nothing {outcome : Outcome} (small : r.spaceAllocated < 2 ^ 64)
    (same : outcome.resource.spaceAllocated = r.spaceAllocated) (pages : outcome.pages = [])
    (blocks : outcome.blocks = []) : Counts r outcome := by
  rw [Counts, same, pages, blocks, heldBytes_nil, Nat.add_zero, u64_of_lt small]

theorem doAllocateInOversizePage_counts (r : ExclusiveMonotonicBufferResource)
    (bytes alignment block : Nat) :
    Counts r (r.doAllocateInOversizePage bytes alignment block).2 := by
  unfold doAllocateInOversizePage
  split_ifs
  · simp [Counts, heldBytes, memory, OversizePage.region]
  · simp only [Counts, heldBytes, memory, OversizePage.region, List.map_cons, List.map_nil,
      List.nil_append, List.sum_cons, List.sum_nil, u64]
    omega

theorem doAllocateInNewPage_counts (r : ExclusiveMonotonicBufferResource) (bytes alignment : Nat)
    (answers : Answers) : Counts r (r.doAllocateInNewPage bytes alignment answers).2 := by
  by_cases fits : bytes ≤ r.pageSize ∧ alignment ≤ r.pageSize
  · simp only [doAllocateInNewPage, if_pos fits, doAllocateWithPageInNewPageArray]
    split_ifs
    · simp [Counts, heldBytes, memory]
    · simp [Counts, heldBytes, memory]
    · simp [Counts, heldBytes, memory]
    · simp only [Counts, heldBytes, memory, List.cons_append, List.nil_append, List.map_cons,
        List.map_nil, List.append_nil, List.sum_cons, List.sum_nil, u64]
      omega
  · rw [doAllocateInNewPage, if_neg fits]
    exact r.doAllocateInOversizePage_counts bytes alignment answers.block

theorem allocate_counts (small : r.spaceAllocated < 2 ^ 64) (bytes alignment : Nat)
    (answers : Answers) : Counts r (r.allocate bytes alignment answers).2 := by
  by_cases fits : u64 (alignMask r.lastPageAllocated alignment + bytes) ≤ r.pageSize
  · rw [allocate_of_fits fits]
    exact counts_nothing small rfl rfl rfl
  · rw [allocate_of_more fits]
    have counts := doAllocateInNewPage_counts { r with
      lastPageAllocated := alignMask r.lastPageAllocated alignment
      spaceUsed := u64 (r.spaceUsed + bytes) } bytes alignment answers
    unfold Counts at counts ⊢
    generalize doAllocateInNewPage _ _ _ _ = served at counts ⊢
    exact counts

theorem registerDestructor_counts (small : r.spaceAllocated < 2 ^ 64) (task : DestroyTask)
    (answers : Answers) : Counts r (r.registerDestructor task answers) := by
  unfold registerDestructor
  split_ifs
  · exact counts_nothing small rfl rfl rfl
  · have counts := allocate_counts small sizeofDestroyTaskArray alignofArray answers
    unfold registerInNewArray
    generalize r.allocate sizeofDestroyTaskArray alignofArray answers = served at counts ⊢
    exact counts

/-! ## The walk of `release` -/

theorem allocate_lastDestroyTaskArray (r : ExclusiveMonotonicBufferResource)
    (bytes alignment : Nat) (answers : Answers) :
    (r.allocate bytes alignment answers).2.resource.lastDestroyTaskArray =
      r.lastDestroyTaskArray := by
  by_cases fits : u64 (alignMask r.lastPageAllocated alignment + bytes) ≤ r.pageSize
  · rw [allocate_of_fits fits]
  · rw [allocate_of_more fits]
    simp only [doAllocateInNewPage, doAllocateWithPageInNewPageArray, doAllocateInOversizePage]
    split_ifs <;> rfl

/-- In each chain of arrays, only the newest one may have free slots, so that all slots of
the others are taken when a walk gets to them. -/
structure Full (r : ExclusiveMonotonicBufferResource) : Prop where
  pageArrays : r.lastPageArray.Full arrayCapacity
  oversizePageArrays : r.lastOversizePageArray.Full arrayCapacity
  destroyTaskArrays : r.lastDestroyTaskArray.Full arrayCapacity

namespace Full

theorem doAllocateInOversizePage (h : Full r) (bytes alignment block : Nat) :
    Full (r.doAllocateInOversizePage bytes alignment block).2.resource := by
  unfold ExclusiveMonotonicBufferResource.doAllocateInOversizePage
  split_ifs with room
  · exact ⟨h.pageArrays, Chain.full_put h.oversizePageArrays room _, h.destroyTaskArrays⟩
  · exact ⟨h.pageArrays, Chain.full_cons h.oversizePageArrays (by simpa using room)
      (show 1 ≤ arrayCapacity by decide), h.destroyTaskArrays⟩

theorem doAllocateInNewPage (h : Full r) (bytes alignment : Nat) (answers : Answers) :
    Full (r.doAllocateInNewPage bytes alignment answers).2.resource := by
  by_cases fits : bytes ≤ r.pageSize ∧ alignment ≤ r.pageSize
  · simp only [ExclusiveMonotonicBufferResource.doAllocateInNewPage, if_pos fits,
      doAllocateWithPageInNewPageArray]
    by_cases room : r.lastPageArray.room arrayCapacity = true
    · rw [if_pos room]
      exact ⟨Chain.full_put h.pageArrays room _, h.oversizePageArrays, h.destroyTaskArrays⟩
    · rw [if_neg room]
      have used : r.lastPageArray.room arrayCapacity = false := by simpa using room
      have one : 1 ≤ arrayCapacity := by decide
      have two : 2 ≤ arrayCapacity := by decide
      split_ifs
      · exact ⟨Chain.full_cons h.pageArrays used one, h.oversizePageArrays, h.destroyTaskArrays⟩
      · exact ⟨Chain.full_cons h.pageArrays used one, h.oversizePageArrays, h.destroyTaskArrays⟩
      · exact ⟨Chain.full_cons h.pageArrays used two, h.oversizePageArrays, h.destroyTaskArrays⟩
  · rw [ExclusiveMonotonicBufferResource.doAllocateInNewPage, if_neg fits]
    exact h.doAllocateInOversizePage ..

theorem allocate (h : Full r) (bytes alignment : Nat) (answers : Answers) :
    Full (r.allocate bytes alignment answers).2.resource := by
  by_cases fits : u64 (alignMask r.lastPageAllocated alignment + bytes) ≤ r.pageSize
  · rw [allocate_of_fits fits]
    exact ⟨h.pageArrays, h.oversizePageArrays, h.destroyTaskArrays⟩
  · rw [allocate_of_more fits]
    have aligned : Full { r with
        lastPageAllocated := alignMask r.lastPageAllocated alignment
        spaceUsed := u64 (r.spaceUsed + bytes) } :=
      ⟨h.pageArrays, h.oversizePageArrays, h.destroyTaskArrays⟩
    exact aligned.doAllocateInNewPage bytes alignment answers

theorem registerDestructor (h : Full r) (task : DestroyTask) (answers : Answers) :
    Full (r.registerDestructor task answers).resource := by
  unfold ExclusiveMonotonicBufferResource.registerDestructor
  split_ifs with room
  · exact ⟨h.pageArrays, h.oversizePageArrays, Chain.full_put h.destroyTaskArrays room _⟩
  · have full := h.allocate sizeofDestroyTaskArray alignofArray answers
    have tasks := allocate_lastDestroyTaskArray r sizeofDestroyTaskArray alignofArray answers
    unfold registerInNewArray
    generalize r.allocate sizeofDestroyTaskArray alignofArray answers = served at full tasks ⊢
    rw [← tasks] at room
    exact ⟨full.pageArrays, full.oversizePageArrays, Chain.full_cons full.destroyTaskArrays
      (by simpa using room) (show 1 ≤ arrayCapacity by decide)⟩

end Full

/-- Each array is read while the page or block around it is held; what an effect gives back
is not held any more. -/
def ReadsHeld (pageSize : Nat) : List Nat → List OversizePage → List Effect → Prop
  | _, _, [] => True
  | pages, blocks, effect :: effects =>
    (∀ array, effect = .read array → ∃ o ∈ memory pageSize pages blocks, array.Inside o) ∧
      ReadsHeld pageSize (pages.diff effect.pages) (blocks.diff effect.blocks) effects

variable {pageSize : Nat} {pages : List Nat} {blocks : List OversizePage}

theorem readsHeld_append {effects effects' : List Effect}
    (h : ReadsHeld pageSize pages blocks effects)
    (h' : ReadsHeld pageSize (pages.diff (effects.flatMap Effect.pages))
      (blocks.diff (effects.flatMap Effect.blocks)) effects') :
    ReadsHeld pageSize pages blocks (effects ++ effects') := by
  induction effects generalizing pages blocks with
  | nil => exact h'
  | cons effect effects ih =>
    refine ⟨h.1, ih h.2 ?_⟩
    simpa only [List.flatMap_cons, List.diff_append] using h'

theorem diff_append_self {α : Type*} [BEq α] [LawfulBEq α] (xs ys : List α) :
    (xs ++ ys).diff xs = ys := by
  induction xs with
  | nil => rfl
  | cons x xs ih => simp [List.diff_cons, ih]

/-- `destruct_all` reads the arrays of destructors and calls the destructors. -/
theorem mem_destructAll {c : Chain DestroyTask} {e : Effect} (mem : e ∈ destructAll c) :
    (∃ task, e = .destruct task) ∨ ∃ a ∈ c.records sizeofDestroyTaskArray, e = .read a := by
  obtain ⟨array, listed, mem⟩ := List.mem_flatMap.mp mem
  have record : (⟨array.addr, sizeofDestroyTaskArray⟩ : Region) ∈
      c.records sizeofDestroyTaskArray := List.mem_map_of_mem listed
  simp only [List.mem_append, List.mem_flatMap, List.mem_cons, List.not_mem_nil, or_false] at mem
  obtain ⟨task, -, rfl | rfl⟩ | rfl := mem
  · exact Or.inr ⟨_, record, rfl⟩
  · exact Or.inl ⟨task, rfl⟩
  · exact Or.inr ⟨_, record, rfl⟩

/-- Nothing is given back while the destructors run. -/
theorem readsHeld_destructAll {c : Chain DestroyTask}
    (tasks : ∀ a ∈ c.records sizeofDestroyTaskArray, ∃ o ∈ memory pageSize pages blocks,
      a.Inside o) : ReadsHeld pageSize pages blocks (destructAll c) := by
  have walk : ∀ effects : List Effect,
      (∀ e ∈ effects, (∃ task, e = .destruct task) ∨
        ∃ a ∈ c.records sizeofDestroyTaskArray, e = .read a) →
        ReadsHeld pageSize pages blocks effects := by
    intro effects kinds
    induction effects with
    | nil => trivial
    | cons effect effects ih =>
      have rest := ih fun e mem => kinds e (List.mem_cons_of_mem _ mem)
      obtain ⟨task, rfl⟩ | ⟨a, mem, rfl⟩ := kinds effect List.mem_cons_self
      · exact ⟨fun _ => nofun, rest⟩
      · refine ⟨fun array eq => ?_, rest⟩
        cases eq
        exact tasks a mem
  exact walk _ fun _ mem => mem_destructAll mem

theorem releasePages_cons (array : Slots Nat) (older : Chain Nat) :
    releasePages (array :: older) = .read ⟨array.addr, sizeofPageArray⟩ ::
      .deallocatePages array.items :: releasePages older := rfl

theorem releaseOversizePages_cons (array : Slots OversizePage) (older : Chain OversizePage) :
    releaseOversizePages (array :: older) = .read ⟨array.addr, sizeofOversizePageArray⟩ ::
      ((array.items.flatMap fun block =>
        [.read ⟨array.addr, sizeofOversizePageArray⟩, .deallocate block]) ++
          releaseOversizePages older) := rfl

/-- The page around an array goes back with this array or with an older one. -/
theorem readsHeld_releasePages {c : Chain Nat} (h : Anchored pageSize c) :
    ReadsHeld pageSize c.items blocks (releasePages c) := by
  induction c with
  | nil => trivial
  | cons array older ih =>
    obtain ⟨⟨page, mem, -, inside⟩, rest⟩ := h
    rw [releasePages_cons]
    refine ⟨fun a eq => ?_, fun _ => nofun, ?_⟩
    · cases eq
      exact ⟨_, List.mem_append_left _ (List.mem_map_of_mem mem), inside⟩
    · simpa only [Effect.pages, Effect.blocks, List.diff_nil, Chain.items_cons, diff_append_self]
        using ih rest

/-- The block around an array is the last one of the array that goes back. -/
theorem readsHeld_blocks {array : Region} {self : OversizePage} (inside : array.Inside self.region)
    {items later : List OversizePage} (last : items ≠ [] → items.getLast? = some self) :
    ReadsHeld pageSize [] (items ++ later)
      (items.flatMap fun block => [.read array, .deallocate block]) := by
  induction items with
  | nil => trivial
  | cons block items ih =>
    have mem := List.mem_of_getLast? (last (List.cons_ne_nil block items))
    refine ⟨fun a eq => ?_, fun _ => nofun, ?_⟩
    · cases eq
      have mem := List.mem_append_left later mem
      exact ⟨_, List.mem_append_right _ (List.mem_map_of_mem mem), inside⟩
    · simp only [Effect.pages, Effect.blocks, List.diff_nil, List.cons_append, List.diff_cons,
        List.erase_cons_head]
      refine ih fun ne => ?_
      rw [← last (List.cons_ne_nil block items), List.getLast?_cons_of_ne_nil ne]

theorem readsHeld_releaseOversizePages {c : Chain OversizePage} (h : SelfHoused c) :
    ReadsHeld pageSize [] c.items (releaseOversizePages c) := by
  induction c with
  | nil => trivial
  | cons array older ih =>
    obtain ⟨self, last, inside⟩ := h array List.mem_cons_self
    have rest := ih fun a mem => h a (List.mem_cons_of_mem array mem)
    rw [releaseOversizePages_cons]
    refine ⟨fun a eq => ?_, readsHeld_append (readsHeld_blocks inside fun _ => last) ?_⟩
    · cases eq
      exact ⟨_, List.mem_append_right _ (List.mem_map_of_mem (List.mem_append_left _
        (List.mem_of_getLast? last))), inside⟩
    · have given : (array.items.flatMap fun block =>
          [Effect.read ⟨array.addr, sizeofOversizePageArray⟩, .deallocate block]).flatMap
            Effect.blocks = array.items := by
        simp [List.flatMap_assoc, Effect.blocks]
      rw [given]
      simpa only [Effect.pages, Effect.blocks, List.diff_nil, List.nil_diff, Chain.items_cons,
        diff_append_self] using rest

/-- Every array is read while the memory around it is held. -/
theorem release_readsHeld (housed : Housed r)
    (tasks : ∀ a ∈ r.lastDestroyTaskArray.records sizeofDestroyTaskArray,
      ∃ o ∈ memory r.pageSize r.pages r.blocks, a.Inside o) :
    ReadsHeld r.pageSize r.pages r.blocks r.release.1 := by
  have destruct : (destructAll r.lastDestroyTaskArray).flatMap Effect.pages = [] ∧
      (destructAll r.lastDestroyTaskArray).flatMap Effect.blocks = [] := by
    constructor <;> simp [destructAll, Effect.pages, Effect.blocks, List.flatMap_assoc]
  have released : (releasePages r.lastPageArray).flatMap Effect.pages = r.pages ∧
      (releasePages r.lastPageArray).flatMap Effect.blocks = [] := by
    constructor <;>
      simp [releasePages, Effect.pages, Effect.blocks, List.flatMap_assoc, pages, Chain.items]
  refine readsHeld_append (readsHeld_append (readsHeld_destructAll tasks) ?_) ?_
  · rw [destruct.1, destruct.2]
    exact readsHeld_releasePages housed.pageArrays
  · simp only [List.flatMap_append, destruct, released, List.nil_append, List.append_nil,
      List.diff_nil, ResourceRun.diff_self]
    exact readsHeld_releaseOversizePages housed.oversizePageArrays

/-! ## What is left behaves like a new resource -/

/-- The resource has no page, and what seems to be used of the current one is not zero. -/
structure Unopened (r : ExclusiveMonotonicBufferResource) : Prop where
  lastPage : r.lastPage = 0
  lastPageArray : r.lastPageArray = []
  pos : 0 < r.lastPageAllocated
  bounded : r.lastPageAllocated ≤ 2 ^ 63

/-- The resources are the same, or have no page and differ only in what seems to be used of
the current one. -/
def Alike (r u : ExclusiveMonotonicBufferResource) : Prop :=
  r = u ∨ Unopened r ∧ Unopened u ∧ u = { r with lastPageAllocated := u.lastPageAllocated }

/-- The calls return the same and take the same. -/
structure SameOutcome (o o' : Outcome) : Prop where
  resource : Alike o.resource o'.resource
  pages : o.pages = o'.pages
  blocks : o.blocks = o'.blocks

theorem sameOutcome_refl (o : Outcome) : SameOutcome o o := ⟨Or.inl rfl, rfl, rfl⟩

/-- The alignments that callers may ask for. -/
def IsAlignment (alignment : Nat) : Prop := alignment.isPowerOfTwo ∧ alignment < 2 ^ 64

namespace Unopened

/-- Aligning does not wrap around. -/
theorem align (h : Unopened r) (pow : IsAlignment alignment) :
    0 < alignMask r.lastPageAllocated alignment ∧
      alignMask r.lastPageAllocated alignment ≤ 2 ^ 63 := by
  have small : alignment ≤ 2 ^ 63 := le_of_isPowerOfTwo pow.1 pow.2
  have pos := Nat.pos_of_isPowerOfTwo pow.1
  have bounded := h.bounded
  rw [alignMask_of_isPowerOfTwo pow.1 (by omega) pow.2]
  refine ⟨h.pos.trans_le (le_alignUp _ pos), alignUp_le pos h.bounded ?_⟩
  exact dvd_of_isPowerOfTwo pow.1 ⟨63, rfl⟩ small

/-- Nothing is served from the page that the resource does not have. -/
theorem more (h : Unopened r) (pow : IsAlignment alignment) {answers : Answers}
    (grounded : Grounded r bytes alignment answers) :
    ¬u64 (alignMask r.lastPageAllocated alignment + bytes) ≤ r.pageSize := fun fits => by
  have zero := grounded.request h.lastPage fits
  have pos := (h.align pow).1
  omega

/-- No page array is put behind what seems to be used of that page. -/
theorem tail (h : Unopened r) (pow : IsAlignment alignment) {answers : Answers}
    (grounded : Grounded r bytes alignment answers)
    (small : bytes ≤ r.pageSize ∧ alignment ≤ r.pageSize) :
    ¬u64 (r.arrayOffset alignment + sizeofPageArray) ≤ r.pageSize := fun fits => by
  have new : NewPageArray r bytes alignment :=
    ⟨not_le.mp (h.more pow grounded), small.1, small.2, by rw [h.lastPageArray]; rfl⟩
  exact ((grounded.array new).oldPage fits).1 h.lastPage

/-- The resource after a request that goes to the upstream. -/
theorem oversize (h : Unopened r) (pow : IsAlignment alignment) (used allocated : Nat)
    (arrays : Chain OversizePage) :
    Unopened { r with
      lastPageAllocated := alignMask r.lastPageAllocated alignment
      spaceUsed := used
      spaceAllocated := allocated
      lastOversizePageArray := arrays } :=
  ⟨h.lastPage, h.lastPageArray, (h.align pow).1, (h.align pow).2⟩

end Unopened

/-- `allocate` on resources that are alike. -/
theorem Alike.allocate (h : Alike r u) (pow : IsAlignment alignment) {answers : Answers}
    (grounded : Grounded r bytes alignment answers)
    (grounded' : Grounded u bytes alignment answers) :
    (r.allocate bytes alignment answers).1 = (u.allocate bytes alignment answers).1 ∧
      SameOutcome (r.allocate bytes alignment answers).2
        (u.allocate bytes alignment answers).2 := by
  obtain rfl | ⟨hr, hu, eq⟩ := h
  · exact ⟨rfl, sameOutcome_refl _⟩
  obtain ⟨l, rfl⟩ : ∃ l, u = { r with lastPageAllocated := l } := ⟨_, eq⟩
  rw [allocate_of_more (hr.more pow grounded), allocate_of_more (hu.more pow grounded')]
  simp only [doAllocateInNewPage]
  by_cases small : bytes ≤ r.pageSize ∧ alignment ≤ r.pageSize
  · have tail := hr.tail pow grounded small
    have tail' := hu.tail pow grounded' small
    have room : r.lastPageArray.room arrayCapacity = false := by rw [hr.lastPageArray]; rfl
    unfold arrayOffset at tail tail'
    simp only [if_pos small, room, doAllocateWithPageInNewPageArray, if_neg tail, if_neg tail',
      Bool.false_eq_true, if_false]
    exact ⟨trivial, sameOutcome_refl _⟩
  · simp only [if_neg small, doAllocateInOversizePage]
    split_ifs
    · exact ⟨rfl, Or.inr ⟨hr.oversize pow .., hu.oversize pow .., rfl⟩, rfl, rfl⟩
    · exact ⟨rfl, Or.inr ⟨hr.oversize pow .., hu.oversize pow .., rfl⟩, rfl, rfl⟩

theorem Unopened.tasks (h : Unopened r) (tasks : Chain DestroyTask) :
    Unopened { r with lastDestroyTaskArray := tasks } :=
  ⟨h.lastPage, h.lastPageArray, h.pos, h.bounded⟩

/-- Filling a task, in the newest array or in a new one. -/
theorem Alike.tasks (h : Alike r u) (f : Chain DestroyTask → Chain DestroyTask) :
    Alike { r with lastDestroyTaskArray := f r.lastDestroyTaskArray }
      { u with lastDestroyTaskArray := f u.lastDestroyTaskArray } := by
  obtain rfl | ⟨hr, hu, eq⟩ := h
  · exact Or.inl rfl
  · refine Or.inr ⟨hr.tasks _, hu.tasks _, ?_⟩
    rw [eq]

theorem Alike.lastDestroyTaskArray (h : Alike r u) :
    u.lastDestroyTaskArray = r.lastDestroyTaskArray := by
  obtain rfl | ⟨-, -, eq⟩ := h
  · rfl
  · rw [eq]

/-- A `register_destructor` is careful if its request for a new array is. -/
def GroundedTask (r : ExclusiveMonotonicBufferResource) (answers : Answers) : Prop :=
  r.lastDestroyTaskArray.room arrayCapacity = true ∨
    Grounded r sizeofDestroyTaskArray alignofArray answers

theorem isAlignment_array : IsAlignment alignofArray := ⟨alignofArray_pow, by decide⟩

/-- `register_destructor` on resources that are alike. -/
theorem Alike.registerDestructor (h : Alike r u) (task : DestroyTask) {answers : Answers}
    (grounded : GroundedTask r answers) (grounded' : GroundedTask u answers) :
    SameOutcome (r.registerDestructor task answers) (u.registerDestructor task answers) := by
  unfold GroundedTask at grounded grounded'
  unfold ExclusiveMonotonicBufferResource.registerDestructor
  rw [h.lastDestroyTaskArray] at grounded' ⊢
  split_ifs with room
  · refine ⟨?_, rfl, rfl⟩
    have filled := h.tasks (Chain.put task)
    rwa [h.lastDestroyTaskArray] at filled
  · obtain ⟨ptr, same⟩ := h.allocate isAlignment_array (grounded.resolve_left room)
      (grounded'.resolve_left room)
    unfold registerInNewArray
    generalize r.allocate sizeofDestroyTaskArray alignofArray answers = served at ptr same ⊢
    generalize u.allocate sizeofDestroyTaskArray alignofArray answers = served' at ptr same ⊢
    obtain ⟨addr, outcome⟩ := served
    obtain rfl : addr = served'.1 := ptr
    exact ⟨same.resource.tasks fun tasks => ⟨served'.1, [task]⟩ :: tasks, same.pages, same.blocks⟩

/-- A resource has a current page as soon as it has a page array. -/
def Opens (r : ExclusiveMonotonicBufferResource) : Prop :=
  r.lastPage = 0 ∨ r.lastPageArray = [] → Unopened r

theorem Opens.tasks (h : Opens r) (tasks : Chain DestroyTask) :
    Opens { r with lastDestroyTaskArray := tasks } := fun none => (h none).tasks tasks

/-- Only requests to the upstream leave the resource without a page. -/
theorem Opens.allocate (h : Opens r) (pow : IsAlignment alignment) {answers : Answers}
    (grounded : Grounded r bytes alignment answers)
    (pos : ∀ page ∈ (r.allocate bytes alignment answers).2.pages, 0 < page) :
    Opens (r.allocate bytes alignment answers).2.resource := by
  by_cases fits : u64 (alignMask r.lastPageAllocated alignment + bytes) ≤ r.pageSize
  · rw [allocate_of_fits fits]
    exact fun none => ((h none).more pow grounded fits).elim
  · rw [allocate_of_more fits] at pos ⊢
    simp only [doAllocateInNewPage] at pos ⊢
    by_cases small : bytes ≤ r.pageSize ∧ alignment ≤ r.pageSize
    · simp only [if_pos small, doAllocateWithPageInNewPageArray] at pos ⊢
      split_ifs at pos ⊢ with room
      · rintro (none | empty)
        · exact absurd none (pos _ List.mem_cons_self).ne'
        · have items := Chain.items_put room answers.page
          simp only at empty
          rw [empty] at items
          cases items
      · exact fun none => absurd (none.resolve_right (List.cons_ne_nil _ _))
          (pos _ List.mem_cons_self).ne'
      · exact fun none => absurd (none.resolve_right (List.cons_ne_nil _ _))
          (pos _ List.mem_cons_self).ne'
      · exact fun none => absurd (none.resolve_right (List.cons_ne_nil _ _))
          (pos _ List.mem_cons_self).ne'
    · simp only [if_neg small, doAllocateInOversizePage]
      split_ifs
      · exact fun none => (h none).oversize pow ..
      · exact fun none => (h none).oversize pow ..

/-- A request never yields null. -/
theorem Opens.nonnull (h : Opens r) (pow : IsAlignment alignment) {answers : Answers}
    (grounded : Grounded r bytes alignment answers)
    (pos : ∀ page ∈ (r.allocate bytes alignment answers).2.pages, 0 < page)
    (blocks : ∀ block ∈ (r.allocate bytes alignment answers).2.blocks, 0 < block.page) :
    (r.allocate bytes alignment answers).1 ≠ 0 := by
  by_cases fits : u64 (alignMask r.lastPageAllocated alignment + bytes) ≤ r.pageSize
  · rw [allocate_of_fits fits]
    have opened : r.lastPage ≠ 0 := fun none => (h (Or.inl none)).more pow grounded fits
    simp only
    omega
  · rw [allocate_of_more fits] at pos blocks ⊢
    simp only [doAllocateInNewPage] at pos blocks ⊢
    by_cases small : bytes ≤ r.pageSize ∧ alignment ≤ r.pageSize
    · simp only [if_pos small, doAllocateWithPageInNewPageArray] at pos ⊢
      split_ifs at pos ⊢
      · exact (pos _ List.mem_cons_self).ne'
      · exact (pos _ List.mem_cons_self).ne'
      · exact (pos _ List.mem_cons_self).ne'
      · exact (pos _ (List.mem_cons_of_mem _ List.mem_cons_self)).ne'
    · simp only [if_neg small, doAllocateInOversizePage] at blocks ⊢
      split_ifs at blocks ⊢
      · exact (blocks _ List.mem_cons_self).ne'
      · exact (blocks _ List.mem_cons_self).ne'

/-- What a release leaves is like a new resource. -/
theorem alike_release (h : r.lastPageArray = [] → Unopened r) :
    Alike r.release.2 { pageSize := r.pageSize } := by
  unfold release
  split
  · rename_i empty
    have closed := h empty
    exact Or.inr ⟨⟨rfl, rfl, closed.pos, closed.bounded⟩, ⟨rfl, rfl,
      show 0 < 4294967295 by decide, show 4294967295 ≤ 2 ^ 63 by decide⟩, rfl⟩
  · exact Or.inl rfl

theorem unopened_new (pageSize : Nat) : Unopened { pageSize := pageSize } :=
  ⟨rfl, rfl, show 0 < 4294967295 by decide, show 4294967295 ≤ 2 ^ 63 by decide⟩

theorem unopened_release (h : r.lastPageArray = [] → Unopened r) : Unopened r.release.2 := by
  obtain eq | ⟨open', -, -⟩ := alike_release h
  · rw [eq]
    exact unopened_new r.pageSize
  · exact open'

/-- Releases of resources that are alike give back the same and leave the same. -/
theorem Alike.release (h : Alike r u) :
    r.release.1 = u.release.1 ∧ Alike r.release.2 u.release.2 := by
  obtain rfl | ⟨hr, hu, eq⟩ := h
  · exact ⟨rfl, Or.inl rfl⟩
  obtain ⟨l, rfl⟩ : ∃ l, u = { r with lastPageAllocated := l } := ⟨_, eq⟩
  refine ⟨rfl, Or.inr ?_⟩
  simp only [ExclusiveMonotonicBufferResource.release, hr.lastPageArray]
  exact ⟨⟨rfl, rfl, hr.pos, hr.bounded⟩, ⟨rfl, rfl, hu.pos, hu.bounded⟩, trivial⟩

end ExclusiveMonotonicBufferResource

/-! ## Runs -/

namespace ResourceRun

open ExclusiveMonotonicBufferResource

variable {s t : ResourceRun} {pageSize : Nat}

/-- A call asks for a permitted alignment. -/
def AlignedCall : ResourceCall → Prop
  | .allocate _ alignment _ => IsAlignment alignment
  | .registerDestructor _ _ | .release => True

/-- The callers ask for alignments that are powers of two, and neither the page allocator nor
the upstream yields null. -/
def allowed (_ : ResourceRun) (call : ResourceCall) (s' : ResourceRun) : Prop :=
  (∀ page ∈ s'.pages, 0 < page) ∧ (∀ block ∈ s'.blocks, 0 < block.page) ∧ AlignedCall call

/-- The requests of a call are grounded. -/
def GroundedCall (r : ExclusiveMonotonicBufferResource) : ResourceCall → Prop
  | .allocate bytes alignment answers => Grounded r bytes alignment answers
  | .registerDestructor _ answers => GroundedTask r answers
  | .release => True

/-- The side condition on the calls of a run. -/
def careful (s : ResourceRun) (call : ResourceCall) (s' : ResourceRun) : Prop :=
  allowed s call s' ∧ GroundedCall s.resource call

/-- Two runs have returned the same and taken the same since the last release, and another
release would do the same. -/
structure SameBehaviour (s t : ResourceRun) : Prop where
  returned : s.returned = t.returned
  pages : s.pages = t.pages
  blocks : s.blocks = t.blocks
  spaceUsed : s.resource.spaceUsed = t.resource.spaceUsed
  spaceAllocated : s.resource.spaceAllocated = t.resource.spaceAllocated
  release : s.resource.release.1 = t.resource.release.1

/-- What `release` does in a state: the counter shows what is held, the walks find all slots
in use, every page and every block goes back once with the size and the alignment with which
it was taken, every array is read while the memory around it is held, and further calls that
meet `ok` behave as on a new resource. -/
structure ReleasesExactly (ok : ResourceRun → ResourceCall → ResourceRun → Prop)
    (s : ResourceRun) : Prop where
  space : s.resource.spaceAllocated = u64 (heldBytes s.resource.pageSize s.pages s.blocks)
  full : Full s.resource
  pages : (s.resource.release.1.flatMap Effect.pages).Perm s.pages
  blocks : (s.resource.release.1.flatMap Effect.blocks).Perm s.blocks
  reads : ReadsHeld s.resource.pageSize s.pages s.blocks s.resource.release.1
  fresh : ∀ calls t u,
    (machine s.resource.pageSize).Along ok (s.next .release) calls →
    (machine s.resource.pageSize).Along ok
      { resource := { pageSize := s.resource.pageSize } } calls →
    (machine s.resource.pageSize).run (s.next .release) calls = some t →
    (machine s.resource.pageSize).run { resource := { pageSize := s.resource.pageSize } } calls =
      some u →
    SameBehaviour t u

/-- The invariant of a run. -/
structure Ledger (pageSize : Nat) (s : ResourceRun) : Prop where
  size : s.resource.pageSize = pageSize
  pages : s.pages = s.resource.pages
  blocks : s.blocks = s.resource.blocks
  space : s.resource.spaceAllocated = u64 (heldBytes pageSize s.pages s.blocks)
  housed : Housed s.resource
  tasks : ∀ a ∈ s.resource.lastDestroyTaskArray.records sizeofDestroyTaskArray,
    ∃ o ∈ memory pageSize s.pages s.blocks, a.Inside o
  opens : Opens s.resource

namespace Ledger

/-- A call that takes pages and blocks. -/
theorem grow (h : Ledger pageSize s) {o : Outcome} (returned : List Returned)
    (takes : Takes s.resource o) (counts : Counts s.resource o) (housed : Housed o.resource)
    (opens : Opens o.resource)
    (tasks : ∀ a ∈ o.resource.lastDestroyTaskArray.records sizeofDestroyTaskArray,
      a ∈ s.resource.lastDestroyTaskArray.records sizeofDestroyTaskArray ∨
        ∃ m ∈ o.resource.held, a.Inside m) :
    Ledger pageSize ⟨o.resource, o.pages ++ s.pages, o.blocks ++ s.blocks, returned⟩ where
  size := takes.pageSize.trans h.size
  pages := by rw [takes.pages, h.pages]
  blocks := by rw [takes.blocks, h.blocks]
  space := by
    rw [counts, h.space, h.size]
    simp only [heldBytes_append, u64]
    omega
  housed := housed
  tasks a mem := by
    obtain old | ⟨m, mem, inside⟩ := tasks a mem
    · obtain ⟨m, mem, inside⟩ := h.tasks a old
      have mem := memory_subset (List.subset_append_right o.pages s.pages)
        (List.subset_append_right o.blocks s.blocks) mem
      exact ⟨m, mem, inside⟩
    · refine ⟨m, ?_, inside⟩
      rw [held, takes.pageSize, h.size, takes.pages, takes.blocks, ← h.pages, ← h.blocks] at mem
      exact memory_subset (fun page mem => List.mem_of_mem_filter mem) (fun _ mem => mem) mem
  opens := opens

/-- A resource without pages and blocks. -/
theorem start {resource : ExclusiveMonotonicBufferResource} (size : resource.pageSize = pageSize)
    (pageArrays : resource.lastPageArray = []) (arrays : resource.lastOversizePageArray = [])
    (tasks : resource.lastDestroyTaskArray = []) (lastPage : resource.lastPage = 0)
    (space : resource.spaceAllocated = 0) (opens : Opens resource) :
    Ledger pageSize { resource := resource } where
  size := size
  pages := by rw [ExclusiveMonotonicBufferResource.pages, pageArrays]; rfl
  blocks := by rw [ExclusiveMonotonicBufferResource.blocks, arrays]; rfl
  space := by rw [space]; rfl
  housed := by
    refine ⟨fun opened => absurd lastPage opened, ?_, ?_⟩
    · rw [pageArrays]; trivial
    · rw [arrays]; exact fun _ mem => absurd mem List.not_mem_nil
  tasks a mem := by rw [tasks] at mem; cases mem
  opens := opens

theorem spaceAllocated_lt (h : Ledger pageSize s) : s.resource.spaceAllocated < 2 ^ 64 := by
  rw [h.space]
  exact Nat.mod_lt _ (by decide)

theorem allocate (h : Ledger pageSize s) (large : sizeofPageArray ≤ pageSize)
    {bytes alignment : Nat} {answers : Answers} (pow : IsAlignment alignment)
    (grounded : Grounded s.resource bytes alignment answers)
    (pos : ∀ page ∈ (s.next (.allocate bytes alignment answers)).pages, 0 < page) :
    Ledger pageSize (s.next (.allocate bytes alignment answers)) := by
  have pos : ∀ page ∈ (s.resource.allocate bytes alignment answers).2.pages, 0 < page :=
    fun page mem => pos page (List.mem_append_left _ mem)
  obtain ⟨housed, -⟩ := h.housed.allocate (by rw [h.size]; exact large) grounded
  have tasks := allocate_lastDestroyTaskArray s.resource bytes alignment answers
  refine h.grow _ (allocate_takes ..) (allocate_counts h.spaceAllocated_lt ..) housed
    (h.opens.allocate pow grounded pos) fun a mem => Or.inl ?_
  rwa [tasks] at mem

/-- The array of destructors lies where a request has been served. -/
theorem registerDestructor (h : Ledger pageSize s) (large : sizeofPageArray ≤ pageSize)
    {task : DestroyTask} {answers : Answers} (grounded : GroundedTask s.resource answers)
    (pos : ∀ page ∈ (s.next (.registerDestructor task answers)).pages, 0 < page)
    (blocks : ∀ block ∈ (s.next (.registerDestructor task answers)).blocks, 0 < block.page) :
    Ledger pageSize (s.next (.registerDestructor task answers)) := by
  have pos : ∀ page ∈ (s.resource.registerDestructor task answers).pages, 0 < page :=
    fun page mem => pos page (List.mem_append_left _ mem)
  have blocks : ∀ block ∈ (s.resource.registerDestructor task answers).blocks, 0 < block.page :=
    fun block mem => blocks block (List.mem_append_left _ mem)
  have takes := s.resource.registerDestructor_takes task answers
  have counts := registerDestructor_counts h.spaceAllocated_lt task answers
  simp only [ResourceRun.next]
  by_cases room : s.resource.lastDestroyTaskArray.room arrayCapacity = true
  · have filled : s.resource.registerDestructor task answers = { resource := { s.resource with
        lastDestroyTaskArray := s.resource.lastDestroyTaskArray.put task } } := if_pos room
    rw [filled] at takes counts ⊢
    refine h.grow _ takes counts ⟨h.housed.current, h.housed.pageArrays,
      h.housed.oversizePageArrays⟩ (h.opens.tasks _) fun a mem => Or.inl ?_
    rwa [Chain.records_put] at mem
  · have grounded := grounded.resolve_left room
    have new : s.resource.registerDestructor task answers =
        s.resource.registerInNewArray task answers := if_neg room
    rw [new] at takes counts pos blocks ⊢
    simp only [registerInNewArray] at takes counts pos blocks ⊢
    obtain ⟨housed, placed⟩ := h.housed.allocate (by rw [h.size]; exact large) grounded
    have nonnull := h.opens.nonnull isAlignment_array grounded pos blocks
    have opens := h.opens.allocate isAlignment_array grounded pos
    have tasks := allocate_lastDestroyTaskArray s.resource sizeofDestroyTaskArray alignofArray
      answers
    generalize s.resource.allocate sizeofDestroyTaskArray alignofArray answers = served
      at takes counts housed placed nonnull opens tasks ⊢
    refine h.grow _ takes counts ⟨housed.current, housed.pageArrays, housed.oversizePageArrays⟩
      (opens.tasks _) fun a mem => ?_
    obtain rfl | mem := List.mem_cons.mp mem
    · exact Or.inr (placed nonnull)
    · rw [tasks] at mem
      exact Or.inl mem

/-- A release gives everything back. -/
theorem release (h : Ledger pageSize s) :
    s.next .release = { resource := s.resource.release.2 } :=
  next_release h.pages h.blocks

theorem released (h : Ledger pageSize s) : Ledger pageSize (s.next .release) := by
  rw [h.release]
  have opens := unopened_release fun none => h.opens (Or.inr none)
  exact .start h.size rfl rfl rfl rfl rfl fun _ => opens

theorem next (h : Ledger pageSize s) (large : sizeofPageArray ≤ pageSize) {call : ResourceCall}
    (ok : careful s call (s.next call)) : Ledger pageSize (s.next call) := by
  obtain ⟨⟨pos, blocks, pow⟩, grounded⟩ := ok
  cases call with
  | allocate bytes alignment answers => exact h.allocate large pow grounded pos
  | registerDestructor task answers => exact h.registerDestructor large grounded pos blocks
  | release => exact h.released

end Ledger

/-- The resources of two runs are alike, and the runs have returned and taken the same. -/
structure Matched (s t : ResourceRun) : Prop where
  resource : Alike s.resource t.resource
  returned : s.returned = t.returned
  pages : s.pages = t.pages
  blocks : s.blocks = t.blocks

namespace Matched

theorem sameBehaviour (h : Matched s t) : SameBehaviour s t := by
  obtain ⟨alike, returned, pages, blocks⟩ := h
  refine ⟨returned, pages, blocks, ?_, ?_, alike.release.1⟩
  · obtain eq | ⟨-, -, eq⟩ := alike <;> rw [eq]
  · obtain eq | ⟨-, -, eq⟩ := alike <;> rw [eq]

theorem next (h : Matched s t) {call : ResourceCall} (ok : careful s call (s.next call))
    (ok' : careful t call (t.next call)) : Matched (s.next call) (t.next call) := by
  obtain ⟨⟨-, -, pow⟩, grounded⟩ := ok
  obtain ⟨-, grounded'⟩ := ok'
  cases call with
  | allocate bytes alignment answers =>
    obtain ⟨ptr, same⟩ := h.resource.allocate pow grounded grounded'
    refine ⟨same.resource, ?_, ?_, ?_⟩
    · simp only [ResourceRun.next, ptr, h.returned]
    · simp only [ResourceRun.next, same.pages, h.pages]
    · simp only [ResourceRun.next, same.blocks, h.blocks]
  | registerDestructor task answers =>
    have same := h.resource.registerDestructor task grounded grounded'
    refine ⟨same.resource, h.returned, ?_, ?_⟩
    · simp only [ResourceRun.next, same.pages, h.pages]
    · simp only [ResourceRun.next, same.blocks, h.blocks]
  | release =>
    obtain ⟨effects, alike⟩ := h.resource.release
    refine ⟨alike, rfl, ?_, ?_⟩
    · simp only [ResourceRun.next, effects, h.pages]
    · simp only [ResourceRun.next, effects, h.blocks]

/-- Careful runs that make the same calls stay matched. -/
theorem run {calls : List ResourceCall} {s' t' : ResourceRun} (h : Matched s t)
    (along : (machine pageSize).Along careful s calls)
    (along' : (machine pageSize).Along careful t calls)
    (hs : (machine pageSize).run s calls = some s')
    (ht : (machine pageSize).run t calls = some t') : Matched s' t' := by
  refine along.related along' hs ht h fun s t call s' t' h step step' ok ok' => ?_
  cases step
  cases step'
  exact h.next ok ok'

end Matched

/-- What a release leaves is matched with a new resource. -/
theorem Ledger.matched (h : Ledger pageSize s) :
    Matched (s.next .release) { resource := { pageSize := s.resource.pageSize } } := by
  rw [h.release]
  exact ⟨alike_release fun none => h.opens (Or.inr none), rfl, rfl, rfl⟩

theorem Ledger.releasesExactly (h : Ledger pageSize s) (full : Full s.resource) :
    ReleasesExactly careful s where
  space := by rw [h.size]; exact h.space
  full := full
  pages := by rw [release_pages, h.pages]
  blocks := by rw [release_blocks, h.blocks]
  reads := by
    have tasks := h.tasks
    rw [← h.size] at tasks
    rw [h.pages, h.blocks] at tasks ⊢
    exact release_readsHeld h.housed tasks
  fresh _ _ _ along along' hs ht := (h.matched.run along along' hs ht).sameBehaviour

/-- In every run only the newest arrays have free slots. -/
theorem full_of_reach {ok : ResourceRun → ResourceCall → ResourceRun → Prop}
    (h : (machine pageSize).Reach ok s) : Full s.resource := by
  refine h.inv (P := fun s => Full s.resource) ?_ fun s call s' full hs _ => ?_
  · rintro s rfl
    exact ⟨trivial, trivial, trivial⟩
  · cases hs
    cases call with
    | allocate bytes alignment answers => exact full.allocate bytes alignment answers
    | registerDestructor task answers => exact full.registerDestructor task answers
    | release => exact ⟨trivial, trivial, trivial⟩

/-- In every run whose calls are careful, a release gives back what was taken. -/
theorem releasesExactly_of_reach (large : sizeofPageArray ≤ pageSize)
    (h : (machine pageSize).Reach careful s) : ReleasesExactly careful s := by
  have inv : Ledger pageSize s := by
    refine h.inv (P := Ledger pageSize) ?_ fun s call s' inv hs ok => ?_
    · rintro s rfl
      exact .start rfl rfl rfl rfl rfl rfl fun _ => unopened_new pageSize
    · cases hs
      exact inv.next large ok
  exact inv.releasesExactly (full_of_reach h)

instance (alignment : Nat) : Decidable (IsAlignment alignment) := by
  unfold IsAlignment
  infer_instance

instance (r : ExclusiveMonotonicBufferResource) (answers : Answers) :
    Decidable (GroundedTask r answers) := by
  unfold GroundedTask
  infer_instance

instance : (call : ResourceCall) → Decidable (AlignedCall call)
  | .allocate _ alignment _ => inferInstanceAs (Decidable (IsAlignment alignment))
  | .registerDestructor _ _ | .release => inferInstanceAs (Decidable True)

instance (r : ExclusiveMonotonicBufferResource) :
    (call : ResourceCall) → Decidable (GroundedCall r call)
  | .allocate bytes alignment answers =>
    inferInstanceAs (Decidable (Grounded r bytes alignment answers))
  | .registerDestructor _ answers => inferInstanceAs (Decidable (GroundedTask r answers))
  | .release => inferInstanceAs (Decidable True)

instance (s : ResourceRun) (call : ResourceCall) (s' : ResourceRun) :
    Decidable (allowed s call s') := inferInstanceAs (Decidable (_ ∧ _ ∧ AlignedCall call))

instance (s : ResourceRun) (call : ResourceCall) (s' : ResourceRun) :
    Decidable (careful s call s') := inferInstanceAs (Decidable (_ ∧ _))

/-- A request in a first page, an array of destructors behind it, and an oversize block. -/
def takePageAndBlock : List ResourceCall :=
  [.allocate 100 8 ⟨65536, 0, 0⟩, .registerDestructor ⟨65536, 1⟩ ⟨0, 0, 0⟩,
    .allocate 5000 16 ⟨0, 0, 131072⟩]

/-- The page and the block with its array are held, and the release gives both back. -/
theorem releasesExactly_of_reach_takePageAndBlock :
    ∃ s, (machine 4096).run { resource := { pageSize := 4096 } } takePageAndBlock = some s ∧
      s.resource.spaceAllocated = 4096 + (5008 + 368) ∧ ReleasesExactly careful s := by
  have along : (machine 4096).Along careful { resource := { pageSize := 4096 } }
      takePageAndBlock := by decide +kernel
  have seen : ((machine 4096).run { resource := { pageSize := 4096 } } takePageAndBlock).map
      (fun s => s.resource.spaceAllocated) = some (4096 + (5008 + 368)) := by decide +kernel
  obtain ⟨s, run, reach, seen⟩ := Machine.Reach.of_along_seen (.start rfl) along seen
  exact ⟨s, run, seen, releasesExactly_of_reach (by decide) reach⟩

/-- The size of pages that are larger than what seems to be used of the page that a new
resource does not have. -/
def hugePageSize : Nat := 4294967296

/-- A request of one byte; the page allocator has a page for it. -/
def oneByte : ResourceCall := .allocate 1 1 ⟨8589934592, 0, 0⟩

/-- A first request is served behind the null pointer and takes no page, so the release does
not forget it, and the next request takes a page. -/
theorem release_remembers :
    ∃ s, (machine hugePageSize).Reach allowed s ∧ ¬ReleasesExactly allowed s := by
  have along : (machine hugePageSize).Along allowed { resource := { pageSize := hugePageSize } }
      [oneByte, .release, oneByte] := by decide +kernel
  have first : (machine hugePageSize).Along allowed { resource := { pageSize := hugePageSize } }
      [oneByte] := ⟨along.1, trivial⟩
  obtain ⟨s, run, reach⟩ := Machine.Reach.of_along (.start rfl) first
  have differ : ((machine hugePageSize).run { resource := { pageSize := hugePageSize } }
      [oneByte, .release, oneByte]).map (fun s => s.returned.map fun a => a.region) ≠
        ((machine hugePageSize).run { resource := { pageSize := hugePageSize } } [oneByte]).map
          fun s => s.returned.map fun a => a.region := by decide +kernel
  cases run
  refine ⟨_, reach, fun fine => differ ?_⟩
  have size : (next { resource := { pageSize := hugePageSize } } oneByte).resource.pageSize =
      hugePageSize := (allocate_takes ..).pageSize
  have fresh := fine.fresh [oneByte]
  rw [size] at fresh
  have same := fresh _ _ along.2.2 first rfl rfl
  simp only [Machine.run_cons, machine, Option.bind_some, Machine.run_nil, Option.map_some,
    same.returned]

end ResourceRun

end Fuxi.Mm
