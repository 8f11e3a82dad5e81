import Fuxi.Mm.MemoryResource

/-!
# Allocations of a resource do not collide

Everything that lies in the memory of a resource is packed: what the resource has returned
and its own arrays are disjoint, and the rest of the current page is free. Each function
of the resource keeps this, and so does every run.
-/

namespace Fuxi.Mm

open Lib

/-- The memory of an oversize page. -/
def OversizePage.region (b : OversizePage) : Region := ⟨b.page, b.bytes⟩

/-- The memory of pages and blocks. -/
def memory (pageSize : Nat) (pages : List Nat) (blocks : List OversizePage) : List Region :=
  pages.map (fun p => ⟨p, pageSize⟩) ++ blocks.map OversizePage.region

/-- What a page allocator and an upstream promise about the pages and blocks that they have
handed out and not got back. -/
structure Granted (pageSize : Nat) (pages : List Nat) (blocks : List OversizePage) : Prop where
  apart : (memory pageSize pages blocks).Pairwise Region.Apart
  pages_pos : ∀ p ∈ pages, 0 < p
  pages_dvd : ∀ p ∈ pages, pageSize ∣ p
  blocks_dvd : ∀ b ∈ blocks, b.alignment ∣ b.page

namespace ExclusiveMonotonicBufferResource

variable {r : ExclusiveMonotonicBufferResource} {user : List Region} {bytes alignment : Nat}

def pages (r : ExclusiveMonotonicBufferResource) : List Nat := r.lastPageArray.items

def blocks (r : ExclusiveMonotonicBufferResource) : List OversizePage :=
  r.lastOversizePageArray.items

/-- How a call changes the resource, apart from what it hands out: the pages and blocks that
it takes go into the arrays. -/
structure Takes (r : ExclusiveMonotonicBufferResource) (outcome : Outcome) : Prop where
  pageSize : outcome.resource.pageSize = r.pageSize
  pages : outcome.resource.pages = outcome.pages ++ r.pages
  blocks : outcome.resource.blocks = outcome.blocks ++ r.blocks

theorem doAllocateInOversizePage_takes (r : ExclusiveMonotonicBufferResource)
    (bytes alignment block : Nat) :
    Takes r (r.doAllocateInOversizePage bytes alignment block).2 := by
  unfold doAllocateInOversizePage
  split_ifs with room
  · exact ⟨rfl, rfl, Chain.items_put room _⟩
  · exact ⟨rfl, rfl, rfl⟩

/-- The page of the request has been taken by the caller. -/
theorem doAllocateWithPageInNewPageArray_takes (r : ExclusiveMonotonicBufferResource)
    (bytes page additionalPage : Nat) :
    let served := r.doAllocateWithPageInNewPageArray bytes page additionalPage
    served.1 = page ∧ Takes r { served.2 with pages := served.2.pages ++ [page] } := by
  simp only [doAllocateWithPageInNewPageArray]
  split_ifs <;> exact ⟨rfl, rfl, rfl, rfl⟩

theorem doAllocateInNewPage_takes (r : ExclusiveMonotonicBufferResource) (bytes alignment : Nat)
    (answers : Answers) : Takes r (r.doAllocateInNewPage bytes alignment answers).2 := by
  by_cases fits : bytes ≤ r.pageSize ∧ alignment ≤ r.pageSize
  · by_cases room : r.lastPageArray.room arrayCapacity = true
    · simp only [doAllocateInNewPage, if_pos fits, if_pos room]
      exact ⟨rfl, Chain.items_put room _, rfl⟩
    · simp only [doAllocateInNewPage, if_pos fits, if_neg room]
      have takes := (doAllocateWithPageInNewPageArray_takes
        { r with spaceAllocated := u64 (r.spaceAllocated + r.pageSize) } bytes answers.page
        answers.additionalPage).2
      exact ⟨takes.pageSize, takes.pages, takes.blocks⟩
  · rw [doAllocateInNewPage, if_neg fits]
    exact r.doAllocateInOversizePage_takes bytes alignment answers.block

theorem allocate_takes (r : ExclusiveMonotonicBufferResource) (bytes alignment : Nat)
    (answers : Answers) : Takes r (r.allocate bytes alignment answers).2 := by
  simp only [allocate, doAllocateAlreadyAligned]
  split_ifs
  · exact ⟨rfl, rfl, rfl⟩
  · obtain ⟨pageSize, pages, blocks⟩ := doAllocateInNewPage_takes
      { r.doAlign alignment with spaceUsed := u64 ((r.doAlign alignment).spaceUsed + bytes) }
      bytes alignment answers
    exact ⟨pageSize, pages, blocks⟩

theorem registerDestructor_takes (r : ExclusiveMonotonicBufferResource) (task : DestroyTask)
    (answers : Answers) : Takes r (r.registerDestructor task answers) := by
  unfold registerDestructor
  split_ifs
  · exact ⟨rfl, rfl, rfl⟩
  · have takes := r.allocate_takes sizeofDestroyTaskArray alignofArray answers
    unfold registerInNewArray
    generalize r.allocate sizeofDestroyTaskArray alignofArray answers = served at takes ⊢
    exact ⟨takes.pageSize, takes.pages, takes.blocks⟩

/-- The arrays that the resource keeps. -/
def records (r : ExclusiveMonotonicBufferResource) : List Region :=
  r.lastPageArray.records sizeofPageArray ++
    (r.lastOversizePageArray.records sizeofOversizePageArray ++
      r.lastDestroyTaskArray.records sizeofDestroyTaskArray)

/-- A new array of destructors. -/
theorem records_registered (r : ExclusiveMonotonicBufferResource) (addr : Nat)
    (task : DestroyTask) :
    (records { r with
        lastDestroyTaskArray := ⟨addr, [task]⟩ :: r.lastDestroyTaskArray }).Perm
      (⟨addr, sizeofDestroyTaskArray⟩ :: r.records) := by
  simp only [records, Chain.records_cons]
  exact (List.perm_middle.append_left _).trans List.perm_middle

/-- The free part of the current page. -/
def rest (r : ExclusiveMonotonicBufferResource) : Region :=
  if r.lastPage = 0 then ⟨0, 0⟩
  else ⟨r.lastPage + r.lastPageAllocated, r.pageSize - r.lastPageAllocated⟩

/-- The invariant; `user` lists the regions that have been returned. -/
structure Tidy (r : ExclusiveMonotonicBufferResource) (user : List Region) : Prop where
  pow : r.pageSize.isPowerOfTwo
  large : sizeofPageArray ≤ r.pageSize
  small : r.pageSize < 2 ^ 64
  bounded : r.lastPageAllocated ≤ max r.pageSize (2 ^ 47)
  current : r.lastPage ≠ 0 → r.lastPage ∈ r.pages
  multiple : ∀ p ∈ r.pages, r.pageSize ∣ p
  packed : Packed (memory r.pageSize r.pages r.blocks) (r.records ++ user) r.rest

/-- Aligning and serving give up parts of the free part. -/
theorem rest_subset {allocated : Nat} (h : r.lastPageAllocated ≤ allocated) :
    Region.bytes (rest { r with lastPageAllocated := allocated }) ⊆ Region.bytes r.rest := by
  intro x
  unfold rest
  split_ifs
  · exact id
  · simp only [Region.bytes, Region.stop, Set.mem_Ico]
    omega

theorem alignofArray_pow : alignofArray.isPowerOfTwo := ⟨3, rfl⟩

/-- An alignment does not move what is used of the current page behind this bound. -/
structure Bounded (r : ExclusiveMonotonicBufferResource) : Prop where
  pow : r.pageSize.isPowerOfTwo
  small : r.pageSize < 2 ^ 64
  bounded : r.lastPageAllocated ≤ max r.pageSize (2 ^ 47)

namespace Bounded

theorem pageSize_le (h : Bounded r) : r.pageSize ≤ 2 ^ 63 := le_of_isPowerOfTwo h.pow h.small

theorem bound_dvd (h : Bounded r) (pow : alignment.isPowerOfTwo) (small : alignment < 2 ^ 48) :
    alignment ∣ max r.pageSize (2 ^ 47) := by
  refine dvd_of_isPowerOfTwo pow (max_isPowerOfTwo h.pow ⟨47, rfl⟩) ?_
  exact (le_of_isPowerOfTwo pow small).trans (le_max_right _ _)

/-- The mask of `do_align` does not wrap around. -/
theorem alignMask_eq (h : Bounded r) (pow : alignment.isPowerOfTwo)
    (small : alignment < 2 ^ 48) :
    alignMask r.lastPageAllocated alignment = alignUp r.lastPageAllocated alignment := by
  have := h.bounded
  have := h.pageSize_le
  exact alignMask_of_isPowerOfTwo pow (by omega) (by omega)

theorem alignUp_bounded (h : Bounded r) (pow : alignment.isPowerOfTwo)
    (small : alignment < 2 ^ 48) :
    alignUp r.lastPageAllocated alignment ≤ max r.pageSize (2 ^ 47) :=
  alignUp_le (Nat.pos_of_isPowerOfTwo pow) h.bounded (h.bound_dvd pow small)

end Bounded

/-- An array fits before a multiple of 8 behind the rounded request if it fits there behind the
request. -/
theorem array_fits {limit : Nat} (dvd : alignofArray ∣ limit) (small : limit ≤ 2 ^ 63)
    (fits : bytes + sizeofPageArray ≤ limit) :
    alignMask bytes alignofArray = alignUp bytes alignofArray ∧
      alignUp bytes alignofArray + sizeofPageArray ≤ limit := by
  have size : sizeofPageArray = 128 := rfl
  constructor
  · exact alignMask_of_isPowerOfTwo alignofArray_pow (by simp only [alignofArray]; omega)
      (by decide)
  · have rounded : alignUp bytes alignofArray ≤ limit - sizeofPageArray :=
      alignUp_le (by decide) (by omega) (Nat.dvd_sub dvd (by decide))
    omega

/-- The size that an oversize request with an array is rounded to does not wrap around. -/
theorem oversize_rounds (pow : alignment.isPowerOfTwo) (small : bytes + alignment < 2 ^ 48) :
    alignMask bytes (max alignment alignofArray) = alignUp bytes (max alignment alignofArray) ∧
      bytes ≤ alignUp bytes (max alignment alignofArray) ∧
        u64 (alignUp bytes (max alignment alignofArray) + sizeofOversizePageArray) =
          alignUp bytes (max alignment alignofArray) + sizeofOversizePageArray := by
  have pow' : (max alignment alignofArray).isPowerOfTwo := max_isPowerOfTwo pow alignofArray_pow
  have bounded : max alignment alignofArray ≤ alignment + 8 := by simp [alignofArray]
  have pos : 0 < max alignment alignofArray := Nat.pos_of_isPowerOfTwo pow'
  have ends := alignUp_lt bytes pos
  have size : sizeofOversizePageArray = 368 := rfl
  exact ⟨alignMask_of_isPowerOfTwo pow' (by omega) (by omega), le_alignUp bytes pos,
    u64_of_lt (by omega)⟩

namespace Tidy

theorem bounds (h : Tidy r user) : Bounded r := ⟨h.pow, h.small, h.bounded⟩

theorem doAlign (h : Tidy r user) (pow : alignment.isPowerOfTwo) (small : alignment < 2 ^ 48) :
    Tidy (r.doAlign alignment) user where
  pow := h.pow
  large := h.large
  small := h.small
  bounded := by
    rw [ExclusiveMonotonicBufferResource.doAlign, h.bounds.alignMask_eq pow small]
    exact h.bounds.alignUp_bounded pow small
  current := h.current
  multiple := h.multiple
  packed := by
    rw [ExclusiveMonotonicBufferResource.doAlign, h.bounds.alignMask_eq pow small]
    exact h.packed.shrink (rest_subset (le_alignUp _ (Nat.pos_of_isPowerOfTwo pow)))

/-- The counters of the resource do not matter. -/
theorem count (h : Tidy r user) (used allocated : Nat) :
    Tidy { r with spaceUsed := used, spaceAllocated := allocated } user :=
  ⟨h.pow, h.large, h.small, h.bounded, h.current, h.multiple, h.packed⟩

/-- The next bytes of the current page. -/
theorem serve (h : Tidy r user) (opened : r.lastPage ≠ 0)
    (fits : r.lastPageAllocated + bytes ≤ r.pageSize) :
    Tidy { r with lastPageAllocated := r.lastPageAllocated + bytes }
      (⟨r.lastPage + r.lastPageAllocated, bytes⟩ :: user) where
  pow := h.pow
  large := h.large
  small := h.small
  bounded := fits.trans (le_max_left _ _)
  current := h.current
  multiple := h.multiple
  packed := by
    have mem : (⟨r.lastPage, r.pageSize⟩ : Region) ∈ memory r.pageSize r.pages r.blocks :=
      List.mem_append_left _ (List.mem_map_of_mem (h.current opened))
    refine Packed.perm (h.packed.carve mem ?_ ?_ (rest_subset (Nat.le_add_right _ bytes)) ?_)
      (.refl _) List.perm_middle.symm
    · simp only [Region.Inside, Region.stop]
      omega
    · intro x
      simp only [rest, opened, if_false, Region.bytes, Region.stop, Set.mem_Ico]
      omega
    · refine Region.apart_of_le ?_
      simp only [rest, opened, if_false, Region.stop]
      omega

/-! ### Blocks of the upstream -/

/-- A block that is the request and nothing else. -/
theorem oversizeInArray (h : Tidy r user) {b : OversizePage}
    (room : r.lastOversizePageArray.room arrayCapacity = true)
    (granted : Granted r.pageSize r.pages (r.lastOversizePageArray.put b).items) :
    Tidy { r with lastOversizePageArray := r.lastOversizePageArray.put b }
      (b.region :: user) where
  pow := h.pow
  large := h.large
  small := h.small
  bounded := h.bounded
  current := h.current
  multiple := h.multiple
  packed := by
    have items : (r.lastOversizePageArray.put b).items = b :: r.blocks := Chain.items_put room b
    have records : ExclusiveMonotonicBufferResource.records
        { r with lastOversizePageArray := r.lastOversizePageArray.put b } = r.records := by
      simp [ExclusiveMonotonicBufferResource.records]
    have fresh := granted.apart
    rw [items] at fresh
    have placed : Packed _ (b.region :: (r.records ++ user)) r.rest :=
      h.packed.place ((List.perm_middle.pairwise_iff Region.Apart.symm).mp fresh)
        (l := [b.region]) (by simp [Region.Inside.refl]) (List.pairwise_singleton ..)
    rw [blocks, items, records]
    exact placed.insert.perm List.perm_middle.symm (.refl _)

/-- A block with the request and an array behind it. -/
theorem oversizeInNewArray (h : Tidy r user) {b : OversizePage} {addr : Nat}
    (behind : b.page + bytes ≤ addr) (ends : addr + sizeofOversizePageArray ≤ b.page + b.bytes)
    (granted : Granted r.pageSize r.pages (b :: r.blocks)) :
    Tidy { r with lastOversizePageArray := ⟨addr, [b]⟩ :: r.lastOversizePageArray }
      (⟨b.page, bytes⟩ :: user) where
  pow := h.pow
  large := h.large
  small := h.small
  bounded := h.bounded
  current := h.current
  multiple := h.multiple
  packed := by
    have placed := h.packed.place
      ((List.perm_middle.pairwise_iff Region.Apart.symm).mp granted.apart)
      (l := [⟨b.page, bytes⟩, ⟨addr, sizeofOversizePageArray⟩]) ?_ ?_
    · refine Packed.insert (placed.perm List.perm_middle.symm (.cons _ ?_))
      exact List.perm_middle.symm.append_right user
    · simp only [List.forall_mem_cons, Region.Inside, Region.stop, OversizePage.region]
      exact ⟨by omega, by omega, by simp⟩
    · exact List.pairwise_pair.mpr (Region.apart_of_le behind)

/-! ### Pages -/

/-- A new current page with `allocated` bytes in use. -/
theorem turn (h : Tidy r user) {c : Chain Nat} {page allocated : Nat} {user' : List Region}
    (fits : allocated ≤ r.pageSize) (mem : page ∈ c.items)
    (granted : Granted r.pageSize c.items r.blocks)
    (packed : Packed (memory r.pageSize c.items r.blocks)
      (records { r with lastPageArray := c } ++ user')
      ⟨page + allocated, r.pageSize - allocated⟩) :
    Tidy { r with lastPageArray := c, lastPage := page, lastPageAllocated := allocated } user' where
  pow := h.pow
  large := h.large
  small := h.small
  bounded := fits.trans (le_max_left _ _)
  current _ := mem
  multiple := granted.pages_dvd
  packed := by
    have pos := (granted.pages_pos page mem).ne'
    simp only [rest, pos, if_false]
    exact packed

/-- The request at the start of a new page. -/
theorem pageInArray (h : Tidy r user) {page : Nat} (fits : bytes ≤ r.pageSize)
    (room : r.lastPageArray.room arrayCapacity = true)
    (granted : Granted r.pageSize (r.lastPageArray.put page).items r.blocks) :
    Tidy { r with
        lastPageArray := r.lastPageArray.put page
        lastPage := page
        lastPageAllocated := bytes }
      (⟨page, bytes⟩ :: user) := by
  have items : (r.lastPageArray.put page).items = page :: r.pages := Chain.items_put room page
  have records : records { r with lastPageArray := r.lastPageArray.put page } = r.records := by
    simp [records]
  refine h.turn fits (by simp [items]) granted ?_
  have fresh := granted.apart
  rw [items] at fresh ⊢
  rw [records]
  exact Packed.insert (h.packed.switchStart fresh fits)

/-- An array behind what is used of the current page, and the request in a new page. -/
theorem arrayInOldPage (h : Tidy r user) {page addr : Nat} (fits : bytes ≤ r.pageSize)
    (opened : r.lastPage ≠ 0) (behind : r.lastPage + r.lastPageAllocated ≤ addr)
    (ends : addr + sizeofPageArray ≤ r.lastPage + r.pageSize)
    (granted : Granted r.pageSize (page :: r.pages) r.blocks) :
    Tidy { r with
        lastPageArray := ⟨addr, [page]⟩ :: r.lastPageArray
        lastPage := page
        lastPageAllocated := bytes }
      (⟨page, bytes⟩ :: user) := by
  refine h.turn fits (by simp) granted ?_
  have mem : (⟨r.lastPage, r.pageSize⟩ : Region) ∈ memory r.pageSize r.pages r.blocks :=
    List.mem_append_left _ (List.mem_map_of_mem (h.current opened))
  -- the old page is left, so nothing of it stays free
  have carved : Packed (memory r.pageSize r.pages r.blocks)
      (⟨addr, sizeofPageArray⟩ :: (r.records ++ user)) ⟨0, 0⟩ := by
    refine h.packed.carve mem ?_ ?_ ?_ ?_
    · simp only [Region.Inside, Region.stop]
      omega
    · intro x
      simp only [rest, opened, if_false, Region.bytes, Region.stop, Set.mem_Ico]
      omega
    · simp [Region.bytes, Region.stop]
    · simp [Region.Apart, Region.bytes, Region.stop]
  exact Packed.insert (carved.switchStart granted.apart fits)

/-- The request and an array behind it in a new page. -/
theorem arrayInNewPage (h : Tidy r user) {page offset : Nat} (behind : bytes ≤ offset)
    (ends : offset + sizeofPageArray ≤ r.pageSize)
    (granted : Granted r.pageSize (page :: r.pages) r.blocks) :
    Tidy { r with
        lastPageArray := ⟨page + offset, [page]⟩ :: r.lastPageArray
        lastPage := page
        lastPageAllocated := offset + sizeofPageArray }
      (⟨page, bytes⟩ :: user) := by
  refine h.turn ends (by simp) granted ?_
  refine Packed.insert (h.packed.switch granted.apart
    (l := [⟨page, bytes⟩, ⟨page + offset, sizeofPageArray⟩]) ?_ ?_ ?_ ?_)
  · simp only [List.forall_mem_cons, Region.Inside, Region.stop]
    exact ⟨by omega, by omega, by simp⟩
  · exact List.pairwise_pair.mpr (Region.apart_of_le (by simp only [Region.stop]; omega))
  · simp only [Region.Inside, Region.stop]
    omega
  · simp only [List.forall_mem_cons]
    refine ⟨Region.apart_of_le ?_, Region.apart_of_le ?_, by simp⟩ <;>
      simp only [Region.stop] <;> omega

/-- The request in a new page and an array in an additional page. -/
theorem arrayInAdditionalPage (h : Tidy r user) {page additionalPage : Nat}
    (fits : bytes ≤ r.pageSize)
    (granted : Granted r.pageSize (additionalPage :: page :: r.pages) r.blocks) :
    Tidy { r with
        lastPageArray := ⟨additionalPage, [additionalPage, page]⟩ :: r.lastPageArray
        lastPage := additionalPage
        lastPageAllocated := sizeofPageArray }
      (⟨page, bytes⟩ :: user) := by
  refine h.turn h.large (by simp) granted ?_
  have large := h.large
  have placed : Packed (memory r.pageSize (page :: r.pages) r.blocks)
      (⟨page, bytes⟩ :: (r.records ++ user)) r.rest := by
    refine h.packed.place (List.pairwise_cons.mp granted.apart).2 (l := [⟨page, bytes⟩]) ?_
      (List.pairwise_singleton ..)
    simp only [List.forall_mem_singleton, Region.Inside, Region.stop]
    omega
  exact placed.insert.switchStart granted.apart large

/-! ### The functions -/

/-- The region that a call has returned is aligned, and the resource is still tidy. -/
def Serves (served : Nat × Outcome) (user : List Region) (bytes alignment : Nat) : Prop :=
  Granted served.2.resource.pageSize served.2.resource.pages served.2.resource.blocks →
    Tidy served.2.resource (⟨served.1, bytes⟩ :: user) ∧ alignment ∣ served.1

theorem doAllocateInOversizePage (h : Tidy r user) (pow : alignment.isPowerOfTwo)
    (small : bytes + alignment < 2 ^ 48) (block : Nat) :
    Serves (r.doAllocateInOversizePage bytes alignment block) user bytes alignment := by
  intro granted
  simp only [ExclusiveMonotonicBufferResource.doAllocateInOversizePage] at granted ⊢
  split_ifs at granted ⊢ with room
  · have counted := h.count r.spaceUsed (u64 (r.spaceAllocated + bytes))
    refine ⟨counted.oversizeInArray room granted, ?_⟩
    refine granted.blocks_dvd ⟨block, bytes, alignment⟩ ?_
    simp only [blocks, Chain.items_put room]
    exact List.mem_cons_self
  · have pow' : (max alignment alignofArray).isPowerOfTwo := max_isPowerOfTwo pow alignofArray_pow
    obtain ⟨rounds, behind, size⟩ := oversize_rounds pow small
    rw [rounds, size] at granted ⊢
    have counted := h.count r.spaceUsed (u64 (r.spaceAllocated +
      (alignUp bytes (max alignment alignofArray) + sizeofOversizePageArray)))
    refine ⟨counted.oversizeInNewArray (by simp only; omega) (by simp only; omega) granted, ?_⟩
    exact (dvd_of_isPowerOfTwo pow pow' (le_max_left _ _)).trans
      (granted.blocks_dvd _ List.mem_cons_self)

theorem doAllocateWithPageInNewPageArray (h : Tidy r user) (fits : bytes ≤ r.pageSize)
    (opened : r.lastPage = 0 →
      r.pageSize < alignUp r.lastPageAllocated alignofArray + sizeofPageArray)
    (page additionalPage : Nat) :
    let after := (r.doAllocateWithPageInNewPageArray bytes page additionalPage).2.resource
    Granted after.pageSize after.pages after.blocks → Tidy after (⟨page, bytes⟩ :: user) := by
  intro after granted
  have pos : 0 < alignofArray := by decide
  have pow := alignofArray_pow
  have rounds := h.bounds.alignMask_eq pow (by decide)
  have bounded := h.bounds.alignUp_bounded pow (by decide)
  have limit := h.bounds.pageSize_le
  have large := h.large
  have small := h.small
  have size : sizeofPageArray = 128 := rfl
  simp only [after, ExclusiveMonotonicBufferResource.doAllocateWithPageInNewPageArray,
    rounds] at granted ⊢
  rw [u64_of_lt (by omega), u64_of_lt (x := bytes + _) (by omega)] at granted ⊢
  split_ifs at granted ⊢ with tail behind
  · have before := le_alignUp r.lastPageAllocated pos
    exact h.arrayInOldPage fits (fun none => by have := opened none; omega) (by omega) (by omega)
      granted
  · have behindRequest := le_alignUp bytes pos
    have dvd : alignofArray ∣ r.pageSize := dvd_of_isPowerOfTwo alignofArray_pow h.pow
      ((show alignofArray ≤ sizeofPageArray by decide).trans h.large)
    obtain ⟨same, ends⟩ := array_fits dvd h.bounds.pageSize_le behind
    rw [same, u64_of_lt (by omega)] at granted ⊢
    exact h.arrayInNewPage behindRequest (by omega) granted
  · have counted := h.count r.spaceUsed (u64 (r.spaceAllocated + r.pageSize))
    exact counted.arrayInAdditionalPage fits granted

theorem doAllocateInNewPage (h : Tidy r user) (pow : alignment.isPowerOfTwo)
    (small : bytes + alignment < 2 ^ 48)
    (opened : r.lastPage = 0 → bytes ≤ r.pageSize → alignment ≤ r.pageSize →
      r.pageSize < alignUp r.lastPageAllocated alignofArray + sizeofPageArray)
    (answers : Answers) :
    Serves (r.doAllocateInNewPage bytes alignment answers) user bytes alignment := by
  have counted := h.count r.spaceUsed (u64 (r.spaceAllocated + r.pageSize))
  by_cases fits : bytes ≤ r.pageSize ∧ alignment ≤ r.pageSize
  · have dvd : alignment ∣ r.pageSize := dvd_of_isPowerOfTwo pow h.pow fits.2
    by_cases room : r.lastPageArray.room arrayCapacity = true
    · simp only [ExclusiveMonotonicBufferResource.doAllocateInNewPage, if_pos fits, if_pos room]
      intro granted
      refine ⟨counted.pageInArray fits.1 room granted, dvd.trans (granted.pages_dvd _ ?_)⟩
      simp only [pages, Chain.items_put room]
      exact List.mem_cons_self
    · simp only [ExclusiveMonotonicBufferResource.doAllocateInNewPage, if_pos fits, if_neg room]
      intro granted
      obtain ⟨ptr, takes⟩ := doAllocateWithPageInNewPageArray_takes
        { r with spaceAllocated := u64 (r.spaceAllocated + r.pageSize) } bytes answers.page
        answers.additionalPage
      refine ⟨?_, ?_⟩
      · rw [ptr]
        exact counted.doAllocateWithPageInNewPageArray fits.1
          (fun none => opened none fits.1 fits.2) answers.page answers.additionalPage granted
      · rw [ptr]
        refine dvd.trans ?_
        have dvd := granted.pages_dvd answers.page (by rw [takes.pages]; simp)
        rwa [takes.pageSize] at dvd
  · rw [ExclusiveMonotonicBufferResource.doAllocateInNewPage, if_neg fits]
    exact h.doAllocateInOversizePage pow small answers.block

end Tidy

/-- The state before a request keeps clear of the two slips of `do_allocate_already_aligned`.
Without a current page neither the request nor a page array may seem to fit into it: the
initial `_last_page_allocated` is `UINT32_MAX`, which does not rule out the large pages. And
an alignment above the page size may not be served from a page that is still empty, unless
that page happens to be aligned. -/
structure Sound (r : ExclusiveMonotonicBufferResource) (bytes alignment : Nat) : Prop where
  request : r.lastPage = 0 → r.pageSize < alignUp r.lastPageAllocated alignment + bytes
  array : r.lastPage = 0 → bytes ≤ r.pageSize → alignment ≤ r.pageSize →
    r.pageSize < alignUp (alignUp r.lastPageAllocated alignment) alignofArray + sizeofPageArray
  aligned : r.lastPage ≠ 0 → r.pageSize < alignment →
    alignUp r.lastPageAllocated alignment + bytes ≤ r.pageSize → alignment ∣ r.lastPage

namespace Tidy

/-- `allocate` returns an aligned region and keeps the resource tidy. -/
theorem allocate (h : Tidy r user) (pow : alignment.isPowerOfTwo)
    (small : bytes + alignment < 2 ^ 48) (sound : Sound r bytes alignment) (answers : Answers) :
    Serves (r.allocate bytes alignment answers) user bytes alignment := by
  have limit := h.bounds.pageSize_le
  have bounded := h.bounds.alignUp_bounded pow (by omega)
  have pos := Nat.pos_of_isPowerOfTwo pow
  have counted := (h.doAlign pow (by omega)).count (u64 (r.spaceUsed + bytes)) r.spaceAllocated
  have rounds := h.bounds.alignMask_eq pow (by omega)
  simp only [ExclusiveMonotonicBufferResource.allocate, doAllocateAlreadyAligned,
    ExclusiveMonotonicBufferResource.doAlign, rounds] at counted ⊢
  rw [u64_of_lt (x := _ + bytes) (by omega)]
  split_ifs with fits
  · intro granted
    have opened : r.lastPage ≠ 0 := fun none => by have := sound.request none; omega
    refine ⟨counted.serve opened fits, Nat.dvd_add ?_ (dvd_alignUp _ _)⟩
    by_cases le : alignment ≤ r.pageSize
    · exact (dvd_of_isPowerOfTwo pow h.pow le).trans (h.multiple _ (h.current opened))
    · exact sound.aligned opened (by omega) fits
  · exact counted.doAllocateInNewPage pow small sound.array answers

/-- Registering a destructor keeps the resource tidy. -/
theorem registerDestructor (h : Tidy r user) (task : DestroyTask) (answers : Answers)
    (sound : r.lastDestroyTaskArray.room arrayCapacity = true ∨
      Sound r sizeofDestroyTaskArray alignofArray) :
    let after := (r.registerDestructor task answers).resource
    Granted after.pageSize after.pages after.blocks → Tidy after user := by
  unfold ExclusiveMonotonicBufferResource.registerDestructor
  split_ifs with room
  · intro after _
    have same : after.records = r.records := by simp [after, records]
    refine ⟨h.pow, h.large, h.small, h.bounded, h.current, h.multiple, ?_⟩
    rw [same]
    exact h.packed
  · have serves := h.allocate alignofArray_pow (by decide) (sound.resolve_left room) answers
    unfold registerInNewArray
    generalize r.allocate sizeofDestroyTaskArray alignofArray answers = served at serves ⊢
    intro after granted
    obtain ⟨pow, large, small, bounded, current, multiple, packed⟩ := (serves granted).1
    refine ⟨pow, large, small, bounded, current, multiple, ?_⟩
    exact packed.perm (.refl _)
      (List.perm_middle.trans ((records_registered _ _ task).symm.append_right user))

end Tidy

end ExclusiveMonotonicBufferResource

/-! ## Runs -/

namespace ResourceRun

open ExclusiveMonotonicBufferResource

variable {s : ResourceRun} {pageSize : Nat}

theorem diff_self {α : Type*} [BEq α] [LawfulBEq α] (l : List α) : l.diff l = [] := by
  induction l with
  | nil => rfl
  | cons a l ih => simp [List.diff_cons, ih]

theorem flatMap_nil {α β : Type*} (l : List α) : l.flatMap (fun _ => ([] : List β)) = [] := by
  simp [List.flatMap_eq_nil_iff]

/-- A release gives back the pages in the arrays. -/
theorem release_pages (r : ExclusiveMonotonicBufferResource) :
    r.release.1.flatMap Effect.pages = r.pages := by
  simp [release, destructAll, releasePages, releaseOversizePages, Effect.pages,
    List.flatMap_assoc, flatMap_nil, ExclusiveMonotonicBufferResource.pages, Chain.items]

/-- A release gives back the blocks in the arrays. -/
theorem release_blocks (r : ExclusiveMonotonicBufferResource) :
    r.release.1.flatMap Effect.blocks = r.blocks := by
  simp [release, destructAll, releasePages, releaseOversizePages, Effect.blocks,
    List.flatMap_assoc, flatMap_nil, ExclusiveMonotonicBufferResource.blocks, Chain.items]

/-- Nothing is left after a release of a resource that knows all pages and blocks. -/
theorem next_release {s : ResourceRun} (pages : s.pages = s.resource.pages)
    (blocks : s.blocks = s.resource.blocks) :
    s.next .release = { resource := s.resource.release.2 } := by
  have noPages : s.pages.diff (s.resource.release.1.flatMap Effect.pages) = [] := by
    rw [release_pages, pages, diff_self]
  have noBlocks : s.blocks.diff (s.resource.release.1.flatMap Effect.blocks) = [] := by
    rw [release_blocks, blocks, diff_self]
  simp only [ResourceRun.next, noPages, noBlocks]

/-- The regions that have been returned are aligned, lie in the memory that is held, and
overlap neither each other nor the arrays of the resource. -/
structure NoCollision (s : ResourceRun) : Prop where
  aligned : ∀ a ∈ s.returned, a.alignment ∣ a.region.start
  inside : ∀ a ∈ s.returned, ∃ o ∈ memory s.resource.pageSize s.pages s.blocks,
    a.region.Inside o
  apart : (s.returned.map Returned.region).Pairwise Region.Apart
  records : ∀ a ∈ s.returned, ∀ r ∈ s.resource.records, a.region.Apart r

/-- Requests of the size in question. -/
def InRange (bytes alignment : Nat) : Prop :=
  alignment.isPowerOfTwo ∧ bytes + alignment < 2 ^ 48

/-- The calls are in range, and the page allocator and the upstream keep their promise. -/
def promised (_ : ResourceRun) (call : ResourceCall) (s' : ResourceRun) : Prop :=
  Granted s'.resource.pageSize s'.pages s'.blocks ∧
    match call with
    | .allocate bytes alignment _ => InRange bytes alignment
    | .registerDestructor _ _ | .release => True

/-- The call does not meet one of the slips. -/
def SoundCall (r : ExclusiveMonotonicBufferResource) : ResourceCall → Prop
  | .allocate bytes alignment _ => Sound r bytes alignment
  | .registerDestructor _ _ => r.lastDestroyTaskArray.room arrayCapacity = true ∨
      Sound r sizeofDestroyTaskArray alignofArray
  | .release => True

/-- The side condition on the calls of a run. -/
def proper (s : ResourceRun) (call : ResourceCall) (s' : ResourceRun) : Prop :=
  promised s call s' ∧ SoundCall s.resource call

/-- The invariant of a run. -/
structure Inv (pageSize : Nat) (s : ResourceRun) : Prop where
  size : s.resource.pageSize = pageSize
  pages : s.pages = s.resource.pages
  blocks : s.blocks = s.resource.blocks
  tidy : Tidy s.resource (s.returned.map Returned.region)
  aligned : ∀ a ∈ s.returned, a.alignment ∣ a.region.start

namespace Inv

/-- Without pages and blocks the resource is tidy. -/
theorem start {allocated : Nat} (pow : pageSize.isPowerOfTwo) (large : sizeofPageArray ≤ pageSize)
    (small : pageSize < 2 ^ 64) (bounded : allocated ≤ max pageSize (2 ^ 47)) :
    Inv pageSize
      { resource := { pageSize := pageSize, lastPageAllocated := allocated } } where
  size := rfl
  pages := rfl
  blocks := rfl
  tidy := ⟨pow, large, small, bounded, fun h => absurd rfl h,
    fun _ h => absurd h List.not_mem_nil, .nil rfl⟩
  aligned := fun _ h => absurd h List.not_mem_nil

theorem next (h : Inv pageSize s) {call : ResourceCall} (ok : proper s call (s.next call)) :
    Inv pageSize (s.next call) := by
  obtain ⟨⟨granted, range⟩, sound⟩ := ok
  cases call with
  | allocate bytes alignment answers =>
    have takes := s.resource.allocate_takes bytes alignment answers
    have pages : (s.next (.allocate bytes alignment answers)).pages =
        (s.next (.allocate bytes alignment answers)).resource.pages := by
      simp only [ResourceRun.next, takes.pages, h.pages]
    have blocks : (s.next (.allocate bytes alignment answers)).blocks =
        (s.next (.allocate bytes alignment answers)).resource.blocks := by
      simp only [ResourceRun.next, takes.blocks, h.blocks]
    rw [pages, blocks] at granted
    obtain ⟨tidy, dvd⟩ := h.tidy.allocate range.1 range.2 sound answers granted
    exact ⟨takes.pageSize.trans h.size, pages, blocks, tidy,
      List.forall_mem_cons.mpr ⟨dvd, h.aligned⟩⟩
  | registerDestructor task answers =>
    have takes := s.resource.registerDestructor_takes task answers
    have pages : (s.next (.registerDestructor task answers)).pages =
        (s.next (.registerDestructor task answers)).resource.pages := by
      simp only [ResourceRun.next, takes.pages, h.pages]
    have blocks : (s.next (.registerDestructor task answers)).blocks =
        (s.next (.registerDestructor task answers)).resource.blocks := by
      simp only [ResourceRun.next, takes.blocks, h.blocks]
    rw [pages, blocks] at granted
    have tidy := h.tidy.registerDestructor task answers sound granted
    exact ⟨takes.pageSize.trans h.size, pages, blocks, tidy, h.aligned⟩
  | release =>
    rw [next_release h.pages h.blocks]
    simp only [release, h.size]
    refine start (h.size ▸ h.tidy.pow) (h.size ▸ h.tidy.large) (h.size ▸ h.tidy.small) ?_
    split
    · exact h.size ▸ h.tidy.bounded
    · exact le_max_of_le_right (by decide)

/-- What is packed does not overlap. -/
theorem noCollision (h : Inv pageSize s) : NoCollision s := by
  have packed := h.tidy.packed
  obtain ⟨-, apart, across⟩ := List.pairwise_append.mp packed.apart
  refine ⟨h.aligned, fun a ha => ?_, apart, fun a ha r hr => ?_⟩
  · rw [h.pages, h.blocks]
    exact packed.inside _ (List.mem_append_right _ (List.mem_map_of_mem ha))
  · exact (across r hr _ (List.mem_map_of_mem ha)).symm

end Inv

/-- In every run whose calls keep clear of the slips, allocations do not collide. -/
theorem noCollision_of_reach (pow : pageSize.isPowerOfTwo) (large : sizeofPageArray ≤ pageSize)
    (small : pageSize < 2 ^ 64) (h : (machine pageSize).Reach proper s) : NoCollision s := by
  have inv : Inv pageSize s := by
    refine h.inv (P := Inv pageSize) ?_ fun s call s' inv hs ok => ?_
    · rintro s rfl
      exact .start pow large small (le_max_of_le_right (by decide))
    · cases hs
      exact inv.next ok
  exact inv.noCollision

instance (pageSize : Nat) (pages : List Nat) (blocks : List OversizePage) :
    Decidable (Granted pageSize pages blocks) :=
  decidable_of_iff
    ((memory pageSize pages blocks).Pairwise Region.Apart ∧ (∀ p ∈ pages, 0 < p) ∧
      (∀ p ∈ pages, pageSize ∣ p) ∧ ∀ b ∈ blocks, b.alignment ∣ b.page)
    ⟨fun ⟨apart, pos, dvd, blocks⟩ => ⟨apart, pos, dvd, blocks⟩,
      fun ⟨apart, pos, dvd, blocks⟩ => ⟨apart, pos, dvd, blocks⟩⟩

instance (r : ExclusiveMonotonicBufferResource) (bytes alignment : Nat) :
    Decidable (Sound r bytes alignment) :=
  decidable_of_iff
    ((r.lastPage = 0 → r.pageSize < alignUp r.lastPageAllocated alignment + bytes) ∧
      (r.lastPage = 0 → bytes ≤ r.pageSize → alignment ≤ r.pageSize →
        r.pageSize <
          alignUp (alignUp r.lastPageAllocated alignment) alignofArray + sizeofPageArray) ∧
      (r.lastPage ≠ 0 → r.pageSize < alignment →
        alignUp r.lastPageAllocated alignment + bytes ≤ r.pageSize → alignment ∣ r.lastPage))
    ⟨fun ⟨request, array, aligned⟩ => ⟨request, array, aligned⟩,
      fun ⟨request, array, aligned⟩ => ⟨request, array, aligned⟩⟩

instance (s : ResourceRun) (call : ResourceCall) (s' : ResourceRun) :
    Decidable (promised s call s') := by
  unfold promised InRange
  cases call <;> infer_instance

instance (r : ExclusiveMonotonicBufferResource) (call : ResourceCall) :
    Decidable (SoundCall r call) := by
  cases call <;> unfold SoundCall <;> infer_instance

instance (s : ResourceRun) (call : ResourceCall) (s' : ResourceRun) :
    Decidable (proper s call s') := by
  unfold proper
  infer_instance

/-- A request in a first page, an array of destructors behind it, an oversize block, and a
second page that is filled. -/
def fillTwoPages : List ResourceCall :=
  [.allocate 100 8 ⟨65536, 0, 0⟩, .registerDestructor ⟨65536, 1⟩ ⟨0, 0, 0⟩,
    .allocate 5000 16 ⟨0, 0, 131072⟩, .allocate 4096 1 ⟨69632, 0, 0⟩]

/-- The first request lies in front of the page array, the second page is full. -/
theorem noCollision_of_reach_fillTwoPages :
    ∃ s, (machine 4096).run { resource := { pageSize := 4096 } } fillTwoPages = some s ∧
      s.returned.map (fun a => a.region) = [⟨69632, 4096⟩, ⟨131072, 5000⟩, ⟨65536, 100⟩] ∧
      NoCollision s := by
  have along : (machine 4096).Along proper { resource := { pageSize := 4096 } } fillTwoPages := by
    decide +kernel
  have seen : ((machine 4096).run { resource := { pageSize := 4096 } } fillTwoPages).map
      (fun s => s.returned.map (fun a => a.region)) =
        some [⟨69632, 4096⟩, ⟨131072, 5000⟩, ⟨65536, 100⟩] := by decide +kernel
  obtain ⟨s, run, reach, seen⟩ := Machine.Reach.of_along_seen (.start rfl) along seen
  exact ⟨s, run, seen,
    noCollision_of_reach (by decide) (by decide) (by decide) reach⟩

/-- A large alignment leaves the first page behind, and a request of no bytes opens another
one. Nothing of that is allocated, so the next request is served from its start whatever
alignment it asks for. -/
def emptyPage : List ResourceCall :=
  [.allocate 8 1 ⟨65536, 0, 0⟩, .allocate 8 8192 ⟨0, 0, 131072⟩, .allocate 0 1 ⟨69632, 0, 0⟩,
    .allocate 8 8192 ⟨0, 0, 0⟩]

/-- The last region is not aligned. -/
theorem allocate_misaligned : ∃ s, (machine 4096).Reach promised s ∧ ¬NoCollision s := by
  have along : (machine 4096).Along promised { resource := { pageSize := 4096 } } emptyPage := by
    decide +kernel
  obtain ⟨s, run, reach⟩ := Machine.Reach.of_along (.start rfl) along
  have seen : ((machine 4096).run { resource := { pageSize := 4096 } } emptyPage).any
      (fun s => s.returned.any fun a => decide (¬a.alignment ∣ a.region.start)) = true := by
    decide +kernel
  rw [run, Option.any_some, List.any_eq_true] at seen
  obtain ⟨a, ha, off⟩ := seen
  exact ⟨s, reach, fun fine => of_decide_eq_true off (fine.aligned a ha)⟩

end ResourceRun

end Fuxi.Mm
