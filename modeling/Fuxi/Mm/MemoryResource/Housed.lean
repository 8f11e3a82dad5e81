import Fuxi.Mm.MemoryResource.NoCollision

/-!
# Where a resource keeps its arrays

Every `PageArray` lies in a page that it lists itself or that an older array lists, and every
`OversizePageArray` lies behind the request in the first block that it lists. A call keeps
this, and returns memory of a page or of a block, unless it takes the null pointer for a page
or a sum of sizes wraps around.
-/

namespace Fuxi.Mm

open Lib

theorem memory_subset {pageSize : Nat} {pages pages' : List Nat}
    {blocks blocks' : List OversizePage} (hp : pages ⊆ pages') (hb : blocks ⊆ blocks') :
    memory pageSize pages blocks ⊆ memory pageSize pages' blocks' := by
  intro o mem
  obtain mem | mem := List.mem_append.mp mem
  · exact List.mem_append_left _ (List.map_subset _ hp mem)
  · exact List.mem_append_right _ (List.map_subset _ hb mem)

namespace ExclusiveMonotonicBufferResource

variable {r : ExclusiveMonotonicBufferResource} {bytes alignment : Nat}

/-- A request that is served from the current page. -/
theorem allocate_of_fits {answers : Answers}
    (fits : u64 (alignMask r.lastPageAllocated alignment + bytes) ≤ r.pageSize) :
    r.allocate bytes alignment answers =
      (r.lastPage + alignMask r.lastPageAllocated alignment,
        { resource := { r with
            lastPageAllocated := u64 (alignMask r.lastPageAllocated alignment + bytes)
            spaceUsed := u64 (r.spaceUsed + bytes) } }) :=
  if_pos fits

/-- A request that does not fit into the current page. -/
theorem allocate_of_more {answers : Answers}
    (more : ¬u64 (alignMask r.lastPageAllocated alignment + bytes) ≤ r.pageSize) :
    r.allocate bytes alignment answers =
      doAllocateInNewPage { r with
        lastPageAllocated := alignMask r.lastPageAllocated alignment
        spaceUsed := u64 (r.spaceUsed + bytes) } bytes alignment answers :=
  if_neg more

/-- A call takes no page, the page of the request, or a second page for the page array. -/
theorem allocate_pages (r : ExclusiveMonotonicBufferResource) (bytes alignment : Nat)
    (answers : Answers) :
    (r.allocate bytes alignment answers).2.pages = [] ∨
      (r.allocate bytes alignment answers).2.pages = [answers.page] ∨
        (r.allocate bytes alignment answers).2.pages = [answers.additionalPage, answers.page] := by
  by_cases fits : u64 (alignMask r.lastPageAllocated alignment + bytes) ≤ r.pageSize
  · rw [allocate_of_fits fits]
    exact Or.inl rfl
  · rw [allocate_of_more fits]
    simp only [doAllocateInNewPage, doAllocateWithPageInNewPageArray, doAllocateInOversizePage]
    split_ifs <;> simp

/-- A call returns a piece of the current page, the start of a new page, or a block. -/
theorem allocate_start (r : ExclusiveMonotonicBufferResource) (bytes alignment : Nat)
    (answers : Answers) :
    (r.allocate bytes alignment answers).1 =
      if u64 (alignMask r.lastPageAllocated alignment + bytes) ≤ r.pageSize then
        r.lastPage + alignMask r.lastPageAllocated alignment
      else if bytes ≤ r.pageSize ∧ alignment ≤ r.pageSize then answers.page
      else answers.block := by
  split_ifs with fits small
  · rw [allocate_of_fits fits]
  · rw [allocate_of_more fits, doAllocateInNewPage, if_pos small]
    simp only [doAllocateWithPageInNewPageArray]
    split_ifs <;> rfl
  · rw [allocate_of_more fits, doAllocateInNewPage, if_neg small, doAllocateInOversizePage]
    split_ifs <;> rfl

/-- A call keeps the current page or turns to a page that it has taken. -/
theorem allocate_lastPage (r : ExclusiveMonotonicBufferResource) (bytes alignment : Nat)
    (answers : Answers) :
    (r.allocate bytes alignment answers).2.resource.lastPage ∈
      [r.lastPage, answers.page, answers.additionalPage] := by
  by_cases fits : u64 (alignMask r.lastPageAllocated alignment + bytes) ≤ r.pageSize
  · rw [allocate_of_fits fits]
    exact List.mem_cons_self
  · rw [allocate_of_more fits]
    simp only [doAllocateInNewPage, doAllocateWithPageInNewPageArray, doAllocateInOversizePage]
    split_ifs <;> simp

/-- A block that a call takes is asked for with the alignment of the request, or with the one
of the array if that is larger. -/
theorem allocate_block (answers : Answers)
    (more : ¬u64 (alignMask r.lastPageAllocated alignment + bytes) ≤ r.pageSize)
    (large : ¬(bytes ≤ r.pageSize ∧ alignment ≤ r.pageSize)) :
    ∃ b ∈ (r.allocate bytes alignment answers).2.blocks, b.page = answers.block ∧
      (b.alignment = alignment ∨ b.alignment = max alignment alignofArray) := by
  rw [allocate_of_more more, doAllocateInNewPage, if_neg large, doAllocateInOversizePage]
  split_ifs
  · exact ⟨_, List.mem_singleton_self _, rfl, Or.inl rfl⟩
  · exact ⟨_, List.mem_singleton_self _, rfl, Or.inr rfl⟩

/-- The memory of the pages that are not null and of the blocks. -/
def held (r : ExclusiveMonotonicBufferResource) : List Region :=
  memory r.pageSize (r.pages.filter (0 < ·)) r.blocks

/-- Every array lies in a page that it lists or that an older array lists. -/
def Anchored (pageSize : Nat) : Chain Nat → Prop
  | [] => True
  | array :: older =>
    (∃ page ∈ Chain.items (array :: older), 0 < page ∧
      (⟨array.addr, sizeofPageArray⟩ : Region).Inside ⟨page, pageSize⟩) ∧ Anchored pageSize older

/-- Every array lies in the first block that it lists. -/
def SelfHoused (c : Chain OversizePage) : Prop :=
  ∀ array ∈ c, ∃ block, array.items.getLast? = some block ∧
    (⟨array.addr, sizeofOversizePageArray⟩ : Region).Inside block.region

/-- Where the current page and the arrays are. -/
structure Housed (r : ExclusiveMonotonicBufferResource) : Prop where
  current : r.lastPage ≠ 0 → r.lastPage ∈ r.pages
  pageArrays : Anchored r.pageSize r.lastPageArray
  oversizePageArrays : SelfHoused r.lastOversizePageArray

/-- The request is for a page, and the newest page array is full. -/
def NewPageArray (r : ExclusiveMonotonicBufferResource) (bytes alignment : Nat) : Prop :=
  r.pageSize < u64 (alignMask r.lastPageAllocated alignment + bytes) ∧ bytes ≤ r.pageSize ∧
    alignment ≤ r.pageSize ∧ r.lastPageArray.room arrayCapacity = false

/-- The place behind what is used of the current page, for a page array. -/
def arrayOffset (r : ExclusiveMonotonicBufferResource) (alignment : Nat) : Nat :=
  alignMask (alignMask r.lastPageAllocated alignment) alignofArray

/-- A new page array does not lie behind the null pointer, and it fits where it is put. -/
structure GroundedArray (r : ExclusiveMonotonicBufferResource) (bytes alignment : Nat)
    (answers : Answers) : Prop where
  oldPage : u64 (r.arrayOffset alignment + sizeofPageArray) ≤ r.pageSize →
    r.lastPage ≠ 0 ∧ r.arrayOffset alignment + sizeofPageArray ≤ r.pageSize
  newPage : r.pageSize < u64 (r.arrayOffset alignment + sizeofPageArray) →
    u64 (bytes + sizeofPageArray) ≤ r.pageSize →
      0 < answers.page ∧ alignMask bytes alignofArray + sizeofPageArray ≤ r.pageSize
  additionalPage : r.pageSize < u64 (r.arrayOffset alignment + sizeofPageArray) →
    r.pageSize < u64 (bytes + sizeofPageArray) → 0 < answers.additionalPage

/-- A call does not take the null pointer for a page, neither for a request nor for a page
array, and no sum of sizes wraps around. -/
structure Grounded (r : ExclusiveMonotonicBufferResource) (bytes alignment : Nat)
    (answers : Answers) : Prop where
  exact : u64 (alignMask r.lastPageAllocated alignment + bytes) ≤ r.pageSize →
    alignMask r.lastPageAllocated alignment + bytes ≤ r.pageSize
  request : r.lastPage = 0 →
    u64 (alignMask r.lastPageAllocated alignment + bytes) ≤ r.pageSize →
      alignMask r.lastPageAllocated alignment = 0
  array : NewPageArray r bytes alignment → GroundedArray r bytes alignment answers
  oversize : r.pageSize < u64 (alignMask r.lastPageAllocated alignment + bytes) →
    r.pageSize < bytes ∨ r.pageSize < alignment →
      r.lastOversizePageArray.room arrayCapacity = false →
        bytes ≤ alignMask bytes (max alignment alignofArray) ∧
          alignMask bytes (max alignment alignofArray) + sizeofOversizePageArray < 2 ^ 64

instance (r : ExclusiveMonotonicBufferResource) (bytes alignment : Nat) :
    Decidable (NewPageArray r bytes alignment) := by
  unfold NewPageArray
  infer_instance

instance (r : ExclusiveMonotonicBufferResource) (bytes alignment : Nat) (answers : Answers) :
    Decidable (GroundedArray r bytes alignment answers) :=
  decidable_of_iff
    ((u64 (r.arrayOffset alignment + sizeofPageArray) ≤ r.pageSize →
        r.lastPage ≠ 0 ∧ r.arrayOffset alignment + sizeofPageArray ≤ r.pageSize) ∧
      (r.pageSize < u64 (r.arrayOffset alignment + sizeofPageArray) →
        u64 (bytes + sizeofPageArray) ≤ r.pageSize →
          0 < answers.page ∧ alignMask bytes alignofArray + sizeofPageArray ≤ r.pageSize) ∧
      (r.pageSize < u64 (r.arrayOffset alignment + sizeofPageArray) →
        r.pageSize < u64 (bytes + sizeofPageArray) → 0 < answers.additionalPage))
    ⟨fun ⟨old, new, additional⟩ => ⟨old, new, additional⟩,
      fun ⟨old, new, additional⟩ => ⟨old, new, additional⟩⟩

instance (r : ExclusiveMonotonicBufferResource) (bytes alignment : Nat) (answers : Answers) :
    Decidable (Grounded r bytes alignment answers) :=
  decidable_of_iff
    ((u64 (alignMask r.lastPageAllocated alignment + bytes) ≤ r.pageSize →
        alignMask r.lastPageAllocated alignment + bytes ≤ r.pageSize) ∧
      (r.lastPage = 0 → u64 (alignMask r.lastPageAllocated alignment + bytes) ≤ r.pageSize →
        alignMask r.lastPageAllocated alignment = 0) ∧
      (NewPageArray r bytes alignment → GroundedArray r bytes alignment answers) ∧
      (r.pageSize < u64 (alignMask r.lastPageAllocated alignment + bytes) →
        r.pageSize < bytes ∨ r.pageSize < alignment →
          r.lastOversizePageArray.room arrayCapacity = false →
            bytes ≤ alignMask bytes (max alignment alignofArray) ∧
              alignMask bytes (max alignment alignofArray) + sizeofOversizePageArray < 2 ^ 64))
    ⟨fun ⟨exact, request, array, oversize⟩ => ⟨exact, request, array, oversize⟩,
      fun ⟨exact, request, array, oversize⟩ => ⟨exact, request, array, oversize⟩⟩

/-- The region that a call has returned lies in a page or in a block, unless it is null. -/
def Places (served : Nat × Outcome) (bytes : Nat) : Prop :=
  Housed served.2.resource ∧
    (served.1 ≠ 0 → ∃ o ∈ served.2.resource.held, (⟨served.1, bytes⟩ : Region).Inside o)

theorem mem_held_of_page {page : Nat} (mem : page ∈ r.pages) (pos : 0 < page) :
    (⟨page, r.pageSize⟩ : Region) ∈ r.held :=
  List.mem_append_left _ (List.mem_map_of_mem (List.mem_filter.mpr ⟨mem, decide_eq_true pos⟩))

theorem mem_held_of_block {block : OversizePage} (mem : block ∈ r.blocks) :
    block.region ∈ r.held :=
  List.mem_append_right _ (List.mem_map_of_mem mem)

/-- The page arrays lie in pages that are not null. -/
theorem Anchored.records {pageSize : Nat} {c : Chain Nat} (h : Anchored pageSize c) {a : Region}
    (mem : a ∈ c.records sizeofPageArray) :
    ∃ page ∈ c.items, 0 < page ∧ a.Inside ⟨page, pageSize⟩ := by
  induction c with
  | nil => cases mem
  | cons array older ih =>
    obtain ⟨anchor, rest⟩ := h
    obtain rfl | mem := List.mem_cons.mp mem
    · exact anchor
    · obtain ⟨page, mem, found⟩ := ih rest mem
      exact ⟨page, List.mem_append_right _ mem, found⟩

/-- The arrays of oversize blocks lie in blocks. -/
theorem SelfHoused.records {c : Chain OversizePage} (h : SelfHoused c) {a : Region}
    (mem : a ∈ c.records sizeofOversizePageArray) : ∃ block ∈ c.items, a.Inside block.region := by
  obtain ⟨array, listed, rfl⟩ := List.mem_map.mp mem
  obtain ⟨block, last, inside⟩ := h array listed
  exact ⟨block, List.mem_flatMap.mpr ⟨array, listed, List.mem_of_getLast? last⟩, inside⟩

/-- A page goes into the newest array. -/
theorem anchored_put {pageSize : Nat} {c : Chain Nat} (h : Anchored pageSize c) (page : Nat) :
    Anchored pageSize (c.put page) := by
  cases c with
  | nil => trivial
  | cons array older =>
    obtain ⟨⟨anchor, mem, inside⟩, rest⟩ := h
    exact ⟨⟨anchor, List.mem_cons_of_mem page mem, inside⟩, rest⟩

/-- A block goes into the newest array, which has a block already. -/
theorem selfHoused_put {c : Chain OversizePage} (h : SelfHoused c) (block : OversizePage) :
    SelfHoused (c.put block) := by
  cases c with
  | nil => exact h
  | cons array older =>
    intro array' mem
    obtain rfl | mem := List.mem_cons.mp mem
    · obtain ⟨last, eq, inside⟩ := h array List.mem_cons_self
      refine ⟨last, ?_, inside⟩
      rw [List.getLast?_cons, eq]
      rfl
    · exact h array' (List.mem_cons_of_mem array mem)

namespace Housed

/-- The counters and what is used of the current page do not matter. -/
theorem count (h : Housed r) (lastPageAllocated used allocated : Nat) :
    Housed { r with
      lastPageAllocated := lastPageAllocated, spaceUsed := used, spaceAllocated := allocated } :=
  ⟨h.current, h.pageArrays, h.oversizePageArrays⟩

/-- A page that goes into the newest array becomes the current page. -/
theorem pageInArray (h : Housed r) {page : Nat}
    (room : r.lastPageArray.room arrayCapacity = true) (allocated : Nat) :
    Housed { r with
      lastPageArray := r.lastPageArray.put page
      lastPage := page
      lastPageAllocated := allocated } where
  current _ := by
    rw [pages, Chain.items_put room]
    exact List.mem_cons_self
  pageArrays := anchored_put h.pageArrays page
  oversizePageArrays := h.oversizePageArrays

/-- A new page array that lies in an old page or in one that it lists. -/
theorem newPageArray (h : Housed r) {addr page allocated : Nat} {items : List Nat}
    (mem : page ∈ items)
    (anchor : ∃ page ∈ items ++ r.pages, 0 < page ∧
      (⟨addr, sizeofPageArray⟩ : Region).Inside ⟨page, r.pageSize⟩) :
    Housed { r with
      lastPageArray := ⟨addr, items⟩ :: r.lastPageArray
      lastPage := page
      lastPageAllocated := allocated } where
  current _ := List.mem_append_left _ mem
  pageArrays := ⟨anchor, h.pageArrays⟩
  oversizePageArrays := h.oversizePageArrays

theorem doAllocateInOversizePage (h : Housed r) (block : Nat)
    (wraps : r.lastOversizePageArray.room arrayCapacity = false →
      bytes ≤ alignMask bytes (max alignment alignofArray) ∧
        alignMask bytes (max alignment alignofArray) + sizeofOversizePageArray < 2 ^ 64) :
    Places (r.doAllocateInOversizePage bytes alignment block) bytes := by
  unfold ExclusiveMonotonicBufferResource.doAllocateInOversizePage
  split_ifs with room
  · refine ⟨⟨h.current, h.pageArrays, selfHoused_put h.oversizePageArrays _⟩, fun _ => ?_⟩
    refine ⟨OversizePage.region ⟨block, bytes, alignment⟩, mem_held_of_block ?_, .refl _⟩
    simp only [blocks, Chain.items_put room]
    exact List.mem_cons_self
  · obtain ⟨le, small⟩ := wraps (by simpa using room)
    have size : u64 (alignMask bytes (max alignment alignofArray) + sizeofOversizePageArray) =
        alignMask bytes (max alignment alignofArray) + sizeofOversizePageArray :=
      u64_of_lt (by omega)
    simp only [size]
    refine ⟨⟨h.current, h.pageArrays, List.forall_mem_cons.mpr ⟨⟨_, rfl, ?_⟩,
      h.oversizePageArrays⟩⟩, fun _ => ⟨_, mem_held_of_block List.mem_cons_self, ?_⟩⟩
    · simp only [List.getLast_singleton, Region.Inside, Region.stop, OversizePage.region]
      omega
    · simp only [Region.Inside, Region.stop, OversizePage.region]
      omega

/-- A new page array, for the request of which `page` has been taken. -/
theorem doAllocateWithPageInNewPageArray (h : Housed r) (large : sizeofPageArray ≤ r.pageSize)
    {page additionalPage : Nat}
    (oldPage : u64 (alignMask r.lastPageAllocated alignofArray + sizeofPageArray) ≤ r.pageSize →
      r.lastPage ≠ 0 ∧ alignMask r.lastPageAllocated alignofArray + sizeofPageArray ≤ r.pageSize)
    (newPage : r.pageSize < u64 (alignMask r.lastPageAllocated alignofArray + sizeofPageArray) →
      u64 (bytes + sizeofPageArray) ≤ r.pageSize →
        0 < page ∧ alignMask bytes alignofArray + sizeofPageArray ≤ r.pageSize)
    (additional : r.pageSize < u64 (alignMask r.lastPageAllocated alignofArray + sizeofPageArray) →
      r.pageSize < u64 (bytes + sizeofPageArray) → 0 < additionalPage) :
    Housed (r.doAllocateWithPageInNewPageArray bytes page additionalPage).2.resource := by
  unfold ExclusiveMonotonicBufferResource.doAllocateWithPageInNewPageArray
  simp only
  split_ifs with tail behind
  · obtain ⟨opened, ends⟩ := oldPage tail
    refine h.newPageArray (List.mem_singleton_self page) ⟨r.lastPage, ?_, ?_, ?_⟩
    · exact List.mem_append_right _ (h.current opened)
    · omega
    · simp only [Region.Inside, Region.stop]
      omega
  · obtain ⟨pos, ends⟩ := newPage (not_le.mp tail) behind
    refine h.newPageArray (List.mem_singleton_self page) ⟨page, ?_, pos, ?_⟩
    · exact List.mem_append_left _ (List.mem_singleton_self page)
    · simp only [Region.Inside, Region.stop]
      omega
  · have pos := additional (not_le.mp tail) (not_le.mp behind)
    have counted := h.count r.lastPageAllocated r.spaceUsed (u64 (r.spaceAllocated + r.pageSize))
    have listed : additionalPage ∈ [additionalPage, page] := List.mem_cons_self
    refine counted.newPageArray listed ⟨additionalPage, ?_, pos, ?_⟩
    · exact List.mem_append_left _ List.mem_cons_self
    · simp only [Region.Inside, Region.stop]
      omega

theorem doAllocateInNewPage (h : Housed r) (large : sizeofPageArray ≤ r.pageSize)
    {answers : Answers} (used : Nat)
    (more : r.pageSize < u64 (alignMask r.lastPageAllocated alignment + bytes))
    (grounded : Grounded r bytes alignment answers) :
    Places (doAllocateInNewPage { r with
      lastPageAllocated := alignMask r.lastPageAllocated alignment
      spaceUsed := used } bytes alignment answers) bytes := by
  rw [ExclusiveMonotonicBufferResource.doAllocateInNewPage]
  by_cases small : bytes ≤ r.pageSize ∧ alignment ≤ r.pageSize
  · simp only [if_pos small]
    have inside : (⟨answers.page, bytes⟩ : Region).Inside ⟨answers.page, r.pageSize⟩ := by
      simp only [Region.Inside, Region.stop]
      omega
    have counted := h.count (alignMask r.lastPageAllocated alignment) used
      (u64 (r.spaceAllocated + r.pageSize))
    by_cases room : r.lastPageArray.room arrayCapacity = true
    · simp only [if_pos room]
      refine ⟨counted.pageInArray room bytes, fun nonnull => ⟨_, mem_held_of_page ?_ ?_, inside⟩⟩
      · rw [pages, Chain.items_put room]
        exact List.mem_cons_self
      · exact Nat.pos_of_ne_zero nonnull
    · simp only [if_neg room]
      have new : NewPageArray r bytes alignment := ⟨more, small.1, small.2, by simpa using room⟩
      have array := grounded.array new
      have housed := counted.doAllocateWithPageInNewPageArray large array.oldPage array.newPage
        array.additionalPage
      obtain ⟨ptr, takes⟩ := doAllocateWithPageInNewPageArray_takes
        { r with
          lastPageAllocated := alignMask r.lastPageAllocated alignment
          spaceUsed := used
          spaceAllocated := u64 (r.spaceAllocated + r.pageSize) } bytes answers.page
        answers.additionalPage
      refine ⟨housed, fun nonnull => ?_⟩
      rw [ptr] at nonnull ⊢
      refine ⟨_, mem_held_of_page ?_ (Nat.pos_of_ne_zero nonnull), ?_⟩
      · rw [takes.pages]
        simp
      · rw [takes.pageSize]
        exact inside
  · simp only [if_neg small]
    refine doAllocateInOversizePage (h.count _ _ _) answers.block (grounded.oversize more ?_)
    rwa [not_and_or, not_le, not_le] at small

/-- `allocate` returns memory of a page or of a block. -/
theorem allocate (h : Housed r) (large : sizeofPageArray ≤ r.pageSize) {answers : Answers}
    (grounded : Grounded r bytes alignment answers) :
    Places (r.allocate bytes alignment answers) bytes := by
  by_cases fits : u64 (alignMask r.lastPageAllocated alignment + bytes) ≤ r.pageSize
  · rw [allocate_of_fits fits]
    have ends := grounded.exact fits
    refine ⟨h.count _ _ _, fun nonnull => ?_⟩
    have opened : r.lastPage ≠ 0 := by
      intro none
      have zero := grounded.request none fits
      simp only [none, zero] at nonnull
      exact nonnull rfl
    refine ⟨⟨r.lastPage, r.pageSize⟩, ?_, ?_⟩
    · exact mem_held_of_page (h.current opened) (Nat.pos_of_ne_zero opened)
    · simp only [Region.Inside, Region.stop]
      omega
  · rw [allocate_of_more fits]
    exact h.doAllocateInNewPage large _ (not_le.mp fits) grounded

end Housed

end ExclusiveMonotonicBufferResource

end Fuxi.Mm
