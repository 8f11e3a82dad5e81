import Fuxi.Mm.MemoryResource.Sizes

/-!
# What `contains` answers

`contains` compares a pointer with all pages and blocks. Of the newest page it takes what
`_last_page_allocated` counts, which is at least what has been returned. It is more than the
page if an alignment has moved it behind the end.
-/

namespace Fuxi.Mm

open Lib

namespace ExclusiveMonotonicBufferResource

/-- The loop of `contains` that goes along the pages; `size` belongs to the next one. -/
def containsPage (pageSize ptr : Nat) : Nat → List Nat → Bool
  | _, [] => false
  | size, page :: older =>
    if page ≤ ptr ∧ ptr < page + size then true else containsPage pageSize ptr pageSize older

/-- The loop of `contains` that goes along the oversize blocks. -/
def containsBlock (ptr : Nat) : List OversizePage → Bool
  | [] => false
  | block :: older =>
    if block.page ≤ ptr ∧ ptr < block.page + block.bytes then true else containsBlock ptr older

/-- `contains`. -/
def contains (r : ExclusiveMonotonicBufferResource) (ptr : Nat) : Bool :=
  containsPage r.pageSize ptr r.lastPageAllocated r.lastPageArray.items ||
    containsBlock ptr r.lastOversizePageArray.items

/-- The pages and blocks with `size` bytes of the newest page. -/
def spans (pageSize size : Nat) : List Nat → List OversizePage → List Region
  | [], blocks => memory pageSize [] blocks
  | page :: older, blocks => ⟨page, size⟩ :: memory pageSize older blocks

open Region

variable {r : ExclusiveMonotonicBufferResource} {pageSize size size' bytes alignment ptr : Nat}
  {pages : List Nat} {blocks : List OversizePage}

theorem memory_eq_spans (pageSize : Nat) (pages : List Nat) (blocks : List OversizePage) :
    memory pageSize pages blocks = spans pageSize pageSize pages blocks := by
  cases pages <;> rfl

/-- The pages behind the newest one count as a whole. -/
theorem containsPage_memory (pages : List Nat) :
    containsPage pageSize ptr pageSize pages = true ↔ ptr ∈ area (memory pageSize pages []) := by
  induction pages with
  | nil => simp [containsPage, memory, area]
  | cons page older ih =>
    have cons : memory pageSize (page :: older) [] = ⟨page, pageSize⟩ :: memory pageSize older [] :=
      rfl
    rw [cons, area_cons, Set.mem_union, ← ih, containsPage]
    simp [Region.bytes, Region.stop]

theorem containsBlock_iff (blocks : List OversizePage) :
    containsBlock ptr blocks = true ↔ ptr ∈ area (blocks.map OversizePage.region) := by
  induction blocks with
  | nil => simp [containsBlock, area]
  | cons block older ih =>
    rw [List.map_cons, area_cons, Set.mem_union, ← ih, containsBlock]
    simp [Region.bytes, Region.stop, OversizePage.region]

theorem mem_area_memory : ptr ∈ area (memory pageSize pages blocks) ↔
    ptr ∈ area (memory pageSize pages []) ∨ ptr ∈ area (blocks.map OversizePage.region) := by
  simp only [area, memory, List.mem_append, Set.mem_ofPred_eq, or_and_right, exists_or,
    List.map_nil, List.append_nil]

/-- What `contains` compares a pointer with. -/
theorem contains_iff (r : ExclusiveMonotonicBufferResource) (ptr : Nat) :
    r.contains ptr = true ↔
      ptr ∈ area (spans r.pageSize r.lastPageAllocated r.pages r.blocks) := by
  simp only [contains, Bool.or_eq_true, containsBlock_iff, ExclusiveMonotonicBufferResource.pages,
    ExclusiveMonotonicBufferResource.blocks]
  cases r.lastPageArray.items with
  | nil => simp [containsPage, spans, memory]
  | cons page older =>
    rw [spans, area_cons, Set.mem_union, mem_area_memory, ← containsPage_memory, containsPage]
    simp [Region.bytes, Region.stop, or_assoc]

theorem area_spans_mono (le : size ≤ size') :
    area (spans pageSize size pages blocks) ⊆ area (spans pageSize size' pages blocks) := by
  cases pages with
  | nil => exact subset_rfl
  | cons page older =>
    simp only [spans, area_cons]
    exact Set.union_subset_union_left _ (Set.Ico_subset_Ico_right (Nat.add_le_add_left le page))

/-- The page that has been the newest one counts as a whole. -/
theorem area_spans_page (le : size ≤ pageSize) {older : List Nat} (sub : pages ⊆ older)
    (page : Nat) :
    area (spans pageSize size pages blocks) ⊆
      area (spans pageSize size' (page :: older) blocks) := by
  refine (area_spans_mono le).trans ?_
  rw [← memory_eq_spans]
  exact area_mono (List.subset_cons_of_subset _ (memory_subset sub (.refl _)))

theorem area_spans_block (block : OversizePage) :
    area (spans pageSize size pages blocks) ⊆
      area (spans pageSize size pages (block :: blocks)) := by
  cases pages with
  | nil => exact area_mono (memory_subset (.refl _) (List.subset_cons_self _ _))
  | cons page older =>
    exact area_mono (List.cons_subset_cons _ (memory_subset (.refl _) (List.subset_cons_self _ _)))

/-- The newest page up to its end or to `_last_page_allocated`, and all other memory. -/
def used (r : ExclusiveMonotonicBufferResource) : Set Nat :=
  area (spans r.pageSize (min r.lastPageAllocated r.pageSize) r.pages r.blocks)

/-- `contains` is true for what is used. -/
theorem contains_of_mem_used (mem : ptr ∈ r.used) : r.contains ptr = true :=
  (r.contains_iff ptr).mpr (area_spans_mono (min_le_left _ _) mem)

/-- What `_last_page_allocated` counts behind the end of the newest page. -/
def overrun (r : ExclusiveMonotonicBufferResource) : Region :=
  match r.pages with
  | [] => ⟨0, 0⟩
  | page :: _ => ⟨page + r.pageSize, r.lastPageAllocated - r.pageSize⟩

/-- `contains` is false outside of the memory of the resource exactly if all that it takes for
a part of the newest page is memory of the resource. -/
theorem contains_sound_iff (r : ExclusiveMonotonicBufferResource) :
    (∀ ptr ∉ area (memory r.pageSize r.pages r.blocks), r.contains ptr = false) ↔
      r.overrun.bytes ⊆ area (memory r.pageSize r.pages r.blocks) := by
  have flip : (∀ ptr ∉ area (memory r.pageSize r.pages r.blocks), r.contains ptr = false) ↔
      ∀ ptr, r.contains ptr = true → ptr ∈ area (memory r.pageSize r.pages r.blocks) := by
    refine forall_congr' fun ptr => ?_
    rw [← not_imp_not, not_not, Bool.not_eq_false]
  rw [flip]
  simp only [contains_iff, overrun]
  cases r.pages with
  | nil => simp [spans, Region.bytes, Region.stop]
  | cons page older =>
    simp only [memory_eq_spans r.pageSize (page :: older), spans, area_cons, Set.mem_union]
    constructor
    · intro sound ptr mem
      simp only [Region.bytes, Region.stop, Set.mem_Ico] at mem
      refine sound ptr (Or.inl ?_)
      simp only [Region.bytes, Region.stop, Set.mem_Ico]
      omega
    · intro covered ptr mem
      obtain mem | mem := mem
      · by_cases inside : ptr < page + r.pageSize
        · left
          simp only [Region.bytes, Region.stop, Set.mem_Ico] at mem ⊢
          omega
        · refine covered ?_
          simp only [Region.bytes, Region.stop, Set.mem_Ico] at mem ⊢
          omega
      · exact Or.inr mem

/-! ## Calls -/

/-- The current page is the newest one. -/
structure Counted (r : ExclusiveMonotonicBufferResource) : Prop where
  halved : Halved r
  newest : r.lastPage ≠ 0 → r.pages.head? = some r.lastPage

/-- A call leaves what is used and adds the region that it returns. -/
structure Uses (r : ExclusiveMonotonicBufferResource) (served : Nat × Outcome) (bytes : Nat) :
    Prop where
  counted : Counted served.2.resource
  kept : r.used ⊆ served.2.resource.used
  region : (⟨served.1, bytes⟩ : Region).bytes ⊆ served.2.resource.used

namespace Counted

/-- The counters of the resource do not matter. -/
theorem count (h : Counted r) (spaceUsed spaceAllocated : Nat) :
    Counted { r with spaceUsed := spaceUsed, spaceAllocated := spaceAllocated } :=
  ⟨⟨h.halved.pageSize_le, h.halved.half⟩, h.newest⟩

theorem doAllocateInOversizePage (h : Counted r) (pow : alignment.isPowerOfTwo)
    (small : bytes + alignment < 2 ^ 48) (block : Nat) :
    Uses r (r.doAllocateInOversizePage bytes alignment block) bytes := by
  have newest (b : OversizePage) (le : bytes ≤ b.bytes) :
      (⟨b.page, bytes⟩ : Region).bytes ⊆
        area (spans r.pageSize (min r.lastPageAllocated r.pageSize) r.pages (b :: r.blocks)) := by
    refine bytes_subset_area (s := b.region) ?_ ⟨le_rfl, Nat.add_le_add_left le _⟩
    cases r.pages <;> simp [spans, memory]
  unfold ExclusiveMonotonicBufferResource.doAllocateInOversizePage
  split_ifs with room
  · have items (b : OversizePage) : (r.lastOversizePageArray.put b).items = b :: r.blocks :=
      Chain.items_put room b
    refine ⟨⟨⟨h.halved.pageSize_le, h.halved.half⟩, h.newest⟩, ?_, ?_⟩
    · simp only [used, blocks, items]
      exact area_spans_block _
    · simp only [used, blocks, items]
      exact newest ⟨block, bytes, alignment⟩ le_rfl
  · obtain ⟨rounds, behind, size⟩ := oversize_rounds pow small
    simp only [rounds, size]
    exact ⟨⟨⟨h.halved.pageSize_le, h.halved.half⟩, h.newest⟩, area_spans_block _,
      newest ⟨block, _, _⟩ (behind.trans (Nat.le_add_right _ _))⟩

/-- A new current page, of which `allocated` bytes count. -/
theorem turn (h : Counted r) {c : Chain Nat} {page allocated : Nat} {older : List Nat}
    (items : c.items = page :: older) (sub : r.pages ⊆ older)
    (half : allocated ≤ 2 ^ 63) :
    Counted { r with lastPageArray := c, lastPage := page, lastPageAllocated := allocated } ∧
      r.used ⊆ used
        { r with lastPageArray := c, lastPage := page, lastPageAllocated := allocated } := by
  refine ⟨⟨⟨h.halved.pageSize_le, half⟩, fun _ => ?_⟩, ?_⟩
  · rw [pages, items]
    rfl
  · simp only [used, pages, items]
    exact area_spans_page (min_le_right _ _) sub page

theorem doAllocateWithPageInNewPageArray (h : Counted r) (fits : bytes ≤ r.pageSize)
    (page additionalPage : Nat) :
    Uses r (r.doAllocateWithPageInNewPageArray bytes page additionalPage) bytes := by
  unfold ExclusiveMonotonicBufferResource.doAllocateWithPageInNewPageArray
  have limit := h.halved.pageSize_le
  have size : sizeofPageArray = 128 := rfl
  simp only
  split_ifs with tail behind
  · obtain ⟨counted, kept⟩ := h.turn (c := ⟨_, [page]⟩ :: r.lastPageArray) rfl (.refl _)
      (fits.trans limit)
    exact ⟨counted, kept, bytes_subset_area List.mem_cons_self
      ⟨le_rfl, Nat.add_le_add_left (le_min le_rfl fits) _⟩⟩
  · rw [u64_of_lt (by omega)] at behind
    obtain ⟨same, ends⟩ := array_fits_half limit behind
    have before := le_alignUp bytes (show 0 < alignofArray by decide)
    rw [same, u64_of_lt (by omega)]
    obtain ⟨counted, kept⟩ := h.turn (c := ⟨_, [page]⟩ :: r.lastPageArray) rfl (.refl _) ends
    exact ⟨counted, kept, bytes_subset_area List.mem_cons_self
      ⟨le_rfl, Nat.add_le_add_left (le_min (before.trans (Nat.le_add_right _ _)) fits) _⟩⟩
  · obtain ⟨counted, kept⟩ := (h.count r.spaceUsed (u64 (r.spaceAllocated + r.pageSize))).turn
      (c := ⟨_, [additionalPage, page]⟩ :: r.lastPageArray) rfl (List.subset_cons_self _ _)
      (show sizeofPageArray ≤ 2 ^ 63 by decide)
    exact ⟨counted, kept, bytes_subset_area (List.mem_cons_of_mem _ List.mem_cons_self)
      ⟨le_rfl, Nat.add_le_add_left fits _⟩⟩

theorem doAllocateInNewPage (h : Counted r) (pow : alignment.isPowerOfTwo)
    (small : bytes + alignment < 2 ^ 48) (answers : Answers) :
    Uses r (r.doAllocateInNewPage bytes alignment answers) bytes := by
  by_cases fits : bytes ≤ r.pageSize ∧ alignment ≤ r.pageSize
  · have counted := h.count r.spaceUsed (u64 (r.spaceAllocated + r.pageSize))
    simp only [ExclusiveMonotonicBufferResource.doAllocateInNewPage, if_pos fits]
    by_cases room : r.lastPageArray.room arrayCapacity = true
    · simp only [if_pos room]
      have items := Chain.items_put room answers.page
      obtain ⟨counted, kept⟩ := counted.turn items (.refl _) (fits.1.trans h.halved.pageSize_le)
      refine ⟨counted, kept, ?_⟩
      simp only [used, pages, items]
      exact bytes_subset_area List.mem_cons_self
        ⟨le_rfl, Nat.add_le_add_left (le_min le_rfl fits.1) _⟩
    · simp only [if_neg room]
      obtain ⟨counted, kept, region⟩ := counted.doAllocateWithPageInNewPageArray fits.1
        answers.page answers.additionalPage
      exact ⟨counted, kept, region⟩
  · rw [ExclusiveMonotonicBufferResource.doAllocateInNewPage, if_neg fits]
    exact h.doAllocateInOversizePage pow small answers.block

/-- What is used of the current page has been moved on. -/
theorem moveOn (h : Counted r) {allocated : Nat} (le : r.lastPageAllocated ≤ allocated)
    (half : allocated ≤ 2 ^ 63) (spaceUsed : Nat) :
    Counted { r with lastPageAllocated := allocated, spaceUsed := spaceUsed } ∧
      r.used ⊆ used { r with lastPageAllocated := allocated, spaceUsed := spaceUsed } :=
  ⟨⟨⟨h.halved.pageSize_le, half⟩, h.newest⟩,
    area_spans_mono (min_le_min_right _ le)⟩

end Counted

/-- The request does not seem to fit into a current page that is not there. -/
def Opened (r : ExclusiveMonotonicBufferResource) (bytes alignment : Nat) : Prop :=
  r.lastPage = 0 → 0 < bytes → r.pageSize < alignUp r.lastPageAllocated alignment + bytes

namespace Counted

/-- What has been used of the current page lies in it. -/
theorem served (h : Counted r) (opened : r.lastPage ≠ 0) {allocated : Nat}
    (fits : allocated + bytes ≤ r.pageSize) (spaceUsed : Nat) :
    (⟨r.lastPage + allocated, bytes⟩ : Region).bytes ⊆
      used { r with lastPageAllocated := allocated + bytes, spaceUsed := spaceUsed } := by
  obtain ⟨older, items⟩ := List.head?_eq_some_iff.mp (h.newest opened)
  have items : r.lastPageArray.items = r.lastPage :: older := items
  simp only [used, pages, items]
  refine bytes_subset_area List.mem_cons_self ⟨Nat.le_add_right _ _, ?_⟩
  simp only [Region.stop, min_eq_left fits]
  omega

/-- `allocate` leaves what is used and adds the region that it returns. -/
theorem allocate (h : Counted r) (pow : alignment.isPowerOfTwo)
    (small : bytes + alignment < 2 ^ 48) (answers : Answers) :
    Counted (r.allocate bytes alignment answers).2.resource ∧
      r.used ⊆ (r.allocate bytes alignment answers).2.resource.used ∧
        (Opened r bytes alignment →
          (⟨(r.allocate bytes alignment answers).1, bytes⟩ : Region).bytes ⊆
            (r.allocate bytes alignment answers).2.resource.used) := by
  obtain ⟨rounds, half⟩ := h.halved.align ⟨pow, by omega⟩
  have limit := h.halved.pageSize_le
  have before := le_alignUp r.lastPageAllocated (Nat.pos_of_isPowerOfTwo pow)
  have exact : u64 (alignUp r.lastPageAllocated alignment + bytes) =
      alignUp r.lastPageAllocated alignment + bytes := u64_of_lt (by omega)
  by_cases fits : u64 (alignMask r.lastPageAllocated alignment + bytes) ≤ r.pageSize
  · rw [allocate_of_fits fits]
    rw [rounds, exact] at fits ⊢
    obtain ⟨counted, kept⟩ := h.moveOn (before.trans (Nat.le_add_right _ bytes))
      (fits.trans limit) (u64 (r.spaceUsed + bytes))
    refine ⟨counted, kept, fun opened => ?_⟩
    obtain rfl | pos := Nat.eq_zero_or_pos bytes
    · simp [Region.bytes, Region.stop]
    · exact h.served (fun none => (opened none pos).not_ge fits) fits _
  · rw [allocate_of_more fits, rounds]
    obtain ⟨counted, kept⟩ := h.moveOn before half (u64 (r.spaceUsed + bytes))
    have uses := counted.doAllocateInNewPage pow small answers
    exact ⟨uses.counted, kept.trans uses.kept, fun _ => uses.region⟩

/-- `register_destructor` leaves what is used. -/
theorem registerDestructor (h : Counted r) (task : DestroyTask) (answers : Answers) :
    Counted (r.registerDestructor task answers).resource ∧
      r.used ⊆ (r.registerDestructor task answers).resource.used := by
  unfold ExclusiveMonotonicBufferResource.registerDestructor
  split_ifs
  · exact ⟨⟨⟨h.halved.pageSize_le, h.halved.half⟩, h.newest⟩, subset_rfl⟩
  · obtain ⟨counted, kept, -⟩ := h.allocate alignofArray_pow
      (show sizeofDestroyTaskArray + alignofArray < 2 ^ 48 by decide) answers
    unfold registerInNewArray
    generalize r.allocate sizeofDestroyTaskArray alignofArray answers = served at counted kept ⊢
    exact ⟨⟨⟨counted.halved.pageSize_le, counted.halved.half⟩, counted.newest⟩, kept⟩

end Counted

end ExclusiveMonotonicBufferResource

/-! ## Runs -/

namespace ResourceRun

open ExclusiveMonotonicBufferResource

variable {s : ResourceRun} {pageSize : Nat}

/-- `contains` is true for all that has been returned, and false outside of the pages and
blocks that are held. -/
structure ContainsExactly (s : ResourceRun) : Prop where
  returned : ∀ a ∈ s.returned, ∀ ptr ∈ a.region.bytes, s.resource.contains ptr = true
  held : ∀ ptr ∉ Region.area (memory s.resource.pageSize s.pages s.blocks),
    s.resource.contains ptr = false

/-- The side condition on the calls of a run; of the page allocator and the upstream nothing is
asked. -/
def opened (s : ResourceRun) (call : ResourceCall) (_ : ResourceRun) : Prop :=
  match call with
  | .allocate bytes alignment _ => InRange bytes alignment ∧ Opened s.resource bytes alignment
  | .registerDestructor _ _ | .release => True

/-- The invariant of a run. -/
structure Watched (pageSize : Nat) (s : ResourceRun) : Prop where
  size : s.resource.pageSize = pageSize
  pages : s.pages = s.resource.pages
  blocks : s.blocks = s.resource.blocks
  counted : Counted s.resource
  returned : ∀ a ∈ s.returned, a.region.bytes ⊆ s.resource.used

namespace Watched

theorem next (h : Watched pageSize s) {call : ResourceCall} (ok : opened s call (s.next call)) :
    Watched pageSize (s.next call) := by
  cases call with
  | allocate bytes alignment answers =>
    obtain ⟨range, opened⟩ := ok
    have takes := s.resource.allocate_takes bytes alignment answers
    obtain ⟨counted, kept, region⟩ := h.counted.allocate range.1 range.2 answers
    refine ⟨takes.pageSize.trans h.size, ?_, ?_, counted, ?_⟩
    · simp only [ResourceRun.next, takes.pages, h.pages]
    · simp only [ResourceRun.next, takes.blocks, h.blocks]
    · exact List.forall_mem_cons.mpr ⟨region opened, fun a mem => (h.returned a mem).trans kept⟩
  | registerDestructor task answers =>
    have takes := s.resource.registerDestructor_takes task answers
    obtain ⟨counted, kept⟩ := h.counted.registerDestructor task answers
    refine ⟨takes.pageSize.trans h.size, ?_, ?_, counted, ?_⟩
    · simp only [ResourceRun.next, takes.pages, h.pages]
    · simp only [ResourceRun.next, takes.blocks, h.blocks]
    · exact fun a mem => (h.returned a mem).trans kept
  | release =>
    refine ⟨h.size, ?_, ?_, ⟨⟨h.counted.halved.pageSize_le, ?_⟩, ?_⟩, ?_⟩
    · simp only [ResourceRun.next, release_pages, h.pages, diff_self]
      rfl
    · simp only [ResourceRun.next, release_blocks, h.blocks, diff_self]
      rfl
    · simp only [ResourceRun.next, release]
      split
      · exact h.counted.halved.half
      · exact show 4294967295 ≤ 2 ^ 63 by decide
    · exact fun some => absurd rfl some
    · exact fun _ mem => absurd mem List.not_mem_nil

theorem containsExactly_iff (h : Watched pageSize s) : ContainsExactly s ↔
    s.resource.overrun.bytes ⊆
      Region.area (memory s.resource.pageSize s.pages s.blocks) := by
  rw [h.pages, h.blocks, ← contains_sound_iff, ← h.pages, ← h.blocks]
  refine ⟨ContainsExactly.held, fun held => ⟨fun a mem ptr inside => ?_, held⟩⟩
  exact contains_of_mem_used (h.returned a mem inside)

end Watched

/-- In every run whose requests are not served from a page that is not there, `contains` is
exact in precisely those states in which what it takes for a part of the newest page is held. -/
theorem containsExactly_iff_of_reach (le : pageSize ≤ 2 ^ 63)
    (h : (machine pageSize).Reach opened s) : ContainsExactly s ↔
      s.resource.overrun.bytes ⊆
        Region.area (memory s.resource.pageSize s.pages s.blocks) := by
  have watched : Watched pageSize s := by
    refine h.inv (P := Watched pageSize) ?_ fun s call s' watched hs ok => ?_
    · rintro s rfl
      exact ⟨rfl, rfl, rfl, ⟨⟨le, show 4294967295 ≤ 2 ^ 63 by decide⟩,
        fun some => absurd rfl some⟩, fun _ mem => absurd mem List.not_mem_nil⟩
    · cases hs
      exact watched.next ok
  exact watched.containsExactly_iff

instance (r : ExclusiveMonotonicBufferResource) (bytes alignment : Nat) :
    Decidable (Opened r bytes alignment) := by
  unfold Opened
  infer_instance

instance (s s' : ResourceRun) : (call : ResourceCall) → Decidable (opened s call s')
  | .allocate bytes alignment _ =>
    inferInstanceAs (Decidable ((alignment.isPowerOfTwo ∧ bytes + alignment < 2 ^ 48) ∧
      Opened s.resource bytes alignment))
  | .registerDestructor _ _ | .release => inferInstanceAs (Decidable True)

/-- The second page is full and nothing counts behind it. -/
theorem containsExactly_iff_of_reach_fillTwoPages :
    ∃ s, (machine 4096).run { resource := { pageSize := 4096 } } fillTwoPages = some s ∧
      s.resource.contains 65635 = true ∧ s.resource.contains 73728 = false ∧
        ContainsExactly s := by
  have along : (machine 4096).Along opened { resource := { pageSize := 4096 } } fillTwoPages := by
    decide +kernel
  have seen : ((machine 4096).run { resource := { pageSize := 4096 } } fillTwoPages).map (fun s =>
      (s.resource.contains 65635, s.resource.contains 73728, s.resource.overrun)) =
        some (true, false, ⟨73728, 0⟩) := by decide +kernel
  obtain ⟨s, run, reach, seen⟩ := Machine.Reach.of_along_seen (.start rfl) along seen
  obtain ⟨mem, seen⟩ := Prod.mk.inj seen
  obtain ⟨notMem, none⟩ := Prod.mk.inj seen
  refine ⟨s, run, mem, notMem, ?_⟩
  refine (containsExactly_iff_of_reach (by decide) reach).mpr ?_
  simp [none, Region.bytes, Region.stop]

/-- A first page, and a request for a large alignment, which the upstream serves. -/
def alignBehindPage : List ResourceCall :=
  [.allocate 8 1 ⟨65536, 0, 0⟩, .allocate 8 8192 ⟨0, 0, 131072⟩]

/-- The first address behind the page is said to belong to the resource. -/
theorem contains_behind_page :
    ∃ s, (machine 4096).Reach (fun s call s' => promised s call s' ∧ opened s call s') s ∧
      s.resource.contains 69632 = true ∧ ¬ContainsExactly s := by
  have along : (machine 4096).Along (fun s call s' => promised s call s' ∧ opened s call s')
      { resource := { pageSize := 4096 } } alignBehindPage := by decide +kernel
  have seen : ((machine 4096).run { resource := { pageSize := 4096 } } alignBehindPage).map
      (fun s => (s.resource.contains 69632, memory s.resource.pageSize s.pages s.blocks)) =
        some (true, [⟨65536, 4096⟩, ⟨131072, 8560⟩]) := by decide +kernel
  obtain ⟨s, -, reach, seen⟩ := Machine.Reach.of_along_seen (.start rfl) along seen
  obtain ⟨mem, held⟩ := Prod.mk.inj seen
  refine ⟨s, reach, mem, fun exactly => ?_⟩
  have outside := exactly.held 69632
  rw [held, mem] at outside
  exact absurd (outside (by simp [Region.area, Region.bytes, Region.stop])) (by decide)

end ResourceRun

end Fuxi.Mm
