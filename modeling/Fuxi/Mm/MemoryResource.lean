import Fuxi.Lib.Chain
import Fuxi.Lib.Machine
import Fuxi.Lib.Packing
import Fuxi.Lib.Word

/-!
# `ExclusiveMonotonicBufferResource`

The resource hands out memory piece by piece and gives all of it back at once. A small
request is served from the current page or from a new one, a large one from the upstream.
The arrays in which the resource keeps its pages, its oversize blocks and the registered
destructors lie in the same memory.
-/

namespace Fuxi.Mm

open Lib

structure OversizePage where
  page : Nat
  bytes : Nat
  alignment : Nat
  deriving DecidableEq

structure DestroyTask where
  ptr : Nat
  destructor : Nat
  deriving DecidableEq

/-- The three chains are the lists of `PageArray`, `OversizePageArray` and
`DestroyTaskArray`; the pointer to the next used slot is the number of items of the newest
array. The null pointer is 0. -/
structure ExclusiveMonotonicBufferResource where
  pageSize : Nat
  lastPageArray : Chain Nat := []
  lastPage : Nat := 0
  lastPageAllocated : Nat := 4294967295
  spaceUsed : Nat := 0
  spaceAllocated : Nat := 0
  lastOversizePageArray : Chain OversizePage := []
  lastDestroyTaskArray : Chain DestroyTask := []

namespace ExclusiveMonotonicBufferResource

/-- `PAGE_ARRAY_CAPACITY` and `DESTROY_TASK_ARRAY_CAPACITY`. -/
def arrayCapacity : Nat := 15

/-- `sizeof(PageArray)`. -/
def sizeofPageArray : Nat := 8 + 8 * arrayCapacity

/-- `sizeof(OversizePageArray)`. -/
def sizeofOversizePageArray : Nat := 8 + 24 * arrayCapacity

/-- `sizeof(DestroyTaskArray)`. -/
def sizeofDestroyTaskArray : Nat := 8 + 16 * arrayCapacity

/-- The alignment of the three arrays. -/
def alignofArray : Nat := 8

/-- What the page allocator and the upstream answer during one call: a page, a second page,
and a block. -/
structure Answers where
  page : Nat
  additionalPage : Nat
  block : Nat

/-- The resource after a call, and the pages and blocks that the call has taken. -/
structure Outcome where
  resource : ExclusiveMonotonicBufferResource
  pages : List Nat := []
  blocks : List OversizePage := []

/-- `do_align`. -/
def doAlign (r : ExclusiveMonotonicBufferResource) (alignment : Nat) :
    ExclusiveMonotonicBufferResource :=
  { r with lastPageAllocated := alignMask r.lastPageAllocated alignment }

/-- `do_allocate_in_oversize_page`. -/
def doAllocateInOversizePage (r : ExclusiveMonotonicBufferResource)
    (bytes alignment block : Nat) : Nat × Outcome :=
  if r.lastOversizePageArray.room arrayCapacity then
    let taken : OversizePage := ⟨block, bytes, alignment⟩
    (block,
      { resource := { r with
          spaceAllocated := u64 (r.spaceAllocated + bytes)
          lastOversizePageArray := r.lastOversizePageArray.put taken }
        blocks := [taken] })
  else
    let alignment := max alignment alignofArray
    let bytes := alignMask bytes alignment
    let taken : OversizePage := ⟨block, u64 (bytes + sizeofOversizePageArray), alignment⟩
    (block,
      { resource := { r with
          spaceAllocated := u64 (r.spaceAllocated + (bytes + sizeofOversizePageArray))
          lastOversizePageArray := ⟨block + bytes, [taken]⟩ :: r.lastOversizePageArray }
        blocks := [taken] })

/-- `do_allocate_with_page_in_new_page_array`: the new array goes behind what is used of the
current page, behind the request in the new page, or into an additional page. -/
def doAllocateWithPageInNewPageArray (r : ExclusiveMonotonicBufferResource)
    (bytes page additionalPage : Nat) : Nat × Outcome :=
  let allocated := alignMask r.lastPageAllocated alignofArray
  if u64 (allocated + sizeofPageArray) ≤ r.pageSize then
    (page,
      { resource := { r with
          lastPageArray := ⟨r.lastPage + allocated, [page]⟩ :: r.lastPageArray
          lastPageAllocated := bytes
          lastPage := page } })
  else if u64 (bytes + sizeofPageArray) ≤ r.pageSize then
    let bytes := alignMask bytes alignofArray
    (page,
      { resource := { r with
          lastPageArray := ⟨page + bytes, [page]⟩ :: r.lastPageArray
          lastPageAllocated := u64 (bytes + sizeofPageArray)
          lastPage := page } })
  else
    (page,
      { resource := { r with
          spaceAllocated := u64 (r.spaceAllocated + r.pageSize)
          lastPageArray := ⟨additionalPage, [additionalPage, page]⟩ :: r.lastPageArray
          lastPageAllocated := sizeofPageArray
          lastPage := additionalPage }
        pages := [additionalPage] })

/-- `do_allocate_in_new_page`. -/
def doAllocateInNewPage (r : ExclusiveMonotonicBufferResource) (bytes alignment : Nat)
    (answers : Answers) : Nat × Outcome :=
  if bytes ≤ r.pageSize ∧ alignment ≤ r.pageSize then
    let page := answers.page
    let r := { r with spaceAllocated := u64 (r.spaceAllocated + r.pageSize) }
    if r.lastPageArray.room arrayCapacity then
      (page,
        { resource := { r with
            lastPageArray := r.lastPageArray.put page
            lastPage := page
            lastPageAllocated := bytes }
          pages := [page] })
    else
      let served := r.doAllocateWithPageInNewPageArray bytes page answers.additionalPage
      (served.1, { served.2 with pages := served.2.pages ++ [page] })
  else r.doAllocateInOversizePage bytes alignment answers.block

/-- `do_allocate_already_aligned`. -/
def doAllocateAlreadyAligned (r : ExclusiveMonotonicBufferResource) (bytes alignment : Nat)
    (answers : Answers) : Nat × Outcome :=
  let r := { r with spaceUsed := u64 (r.spaceUsed + bytes) }
  if u64 (r.lastPageAllocated + bytes) ≤ r.pageSize then
    (r.lastPage + r.lastPageAllocated,
      { resource := { r with lastPageAllocated := u64 (r.lastPageAllocated + bytes) } })
  else r.doAllocateInNewPage bytes alignment answers

/-- `allocate`. -/
def allocate (r : ExclusiveMonotonicBufferResource) (bytes alignment : Nat)
    (answers : Answers) : Nat × Outcome :=
  (r.doAlign alignment).doAllocateAlreadyAligned bytes alignment answers

/-- `do_get_destroy_task_in_new_array`, and `register_destructor` filling the task. -/
def registerInNewArray (r : ExclusiveMonotonicBufferResource) (task : DestroyTask)
    (answers : Answers) : Outcome :=
  let served := r.allocate sizeofDestroyTaskArray alignofArray answers
  let after := served.2.resource
  { served.2 with resource := { after with
      lastDestroyTaskArray := ⟨served.1, [task]⟩ :: after.lastDestroyTaskArray } }

/-- `register_destructor`. -/
def registerDestructor (r : ExclusiveMonotonicBufferResource) (task : DestroyTask)
    (answers : Answers) : Outcome :=
  if r.lastDestroyTaskArray.room arrayCapacity then
    { resource := { r with lastDestroyTaskArray := r.lastDestroyTaskArray.put task } }
  else r.registerInNewArray task answers

/-! ## Giving everything back -/

/-- What `release` does outside the resource; `read` is an access to an array. -/
inductive Effect
  | read (array : Region)
  | destruct (task : DestroyTask)
  | deallocatePages (pages : List Nat)
  | deallocate (block : OversizePage)

/-- The pages that are given back. -/
def Effect.pages : Effect → List Nat
  | .deallocatePages pages => pages
  | .read _ | .destruct _ | .deallocate _ => []

/-- The blocks that are given back. -/
def Effect.blocks : Effect → List OversizePage
  | .deallocate block => [block]
  | .read _ | .destruct _ | .deallocatePages _ => []

/-- The loop of `destruct_all`; `next` is read after the tasks. -/
def destructAll (c : Chain DestroyTask) : List Effect :=
  c.flatMap fun array =>
    array.items.flatMap (fun task =>
      [.read ⟨array.addr, sizeofDestroyTaskArray⟩, .destruct task]) ++
        [.read ⟨array.addr, sizeofDestroyTaskArray⟩]

/-- The first loop of `release`: the pages of an array are copied before they go back. -/
def releasePages (c : Chain Nat) : List Effect :=
  c.flatMap fun array =>
    [.read ⟨array.addr, sizeofPageArray⟩, .deallocatePages array.items]

/-- The second loop of `release`: `next` is read before the blocks go back one by one. -/
def releaseOversizePages (c : Chain OversizePage) : List Effect :=
  c.flatMap fun array =>
    .read ⟨array.addr, sizeofOversizePageArray⟩ ::
      array.items.flatMap fun block =>
        [.read ⟨array.addr, sizeofOversizePageArray⟩, .deallocate block]

/-- `release`. -/
def release (r : ExclusiveMonotonicBufferResource) :
    List Effect × ExclusiveMonotonicBufferResource :=
  (destructAll r.lastDestroyTaskArray ++ releasePages r.lastPageArray ++
      releaseOversizePages r.lastOversizePageArray,
    { pageSize := r.pageSize
      lastPageAllocated :=
        match r.lastPageArray with
        | [] => r.lastPageAllocated
        | _ :: _ => 4294967295 })

end ExclusiveMonotonicBufferResource

/-! ## Runs -/

open ExclusiveMonotonicBufferResource in
/-- A call on the resource, with the answers of the page allocator and the upstream. -/
inductive ResourceCall
  | allocate (bytes alignment : Nat) (answers : Answers)
  | registerDestructor (task : DestroyTask) (answers : Answers)
  | release

/-- A region that `allocate` has returned, and the alignment that was asked for. -/
structure Returned where
  region : Region
  alignment : Nat

/-- A resource, the pages and blocks that it has taken and not given back, and the regions
that it has returned since the last release. -/
structure ResourceRun where
  resource : ExclusiveMonotonicBufferResource
  pages : List Nat := []
  blocks : List OversizePage := []
  returned : List Returned := []

namespace ResourceRun

open ExclusiveMonotonicBufferResource

/-- The state after a call. -/
def next (s : ResourceRun) : ResourceCall → ResourceRun
  | .allocate bytes alignment answers =>
    let served := s.resource.allocate bytes alignment answers
    { resource := served.2.resource
      pages := served.2.pages ++ s.pages
      blocks := served.2.blocks ++ s.blocks
      returned := ⟨⟨served.1, bytes⟩, alignment⟩ :: s.returned }
  | .registerDestructor task answers =>
    let outcome := s.resource.registerDestructor task answers
    { s with
      resource := outcome.resource
      pages := outcome.pages ++ s.pages
      blocks := outcome.blocks ++ s.blocks }
  | .release =>
    let released := s.resource.release
    { resource := released.2
      pages := s.pages.diff (released.1.flatMap Effect.pages)
      blocks := s.blocks.diff (released.1.flatMap Effect.blocks) }

/-- The runs of a new resource with pages of `pageSize` bytes. -/
def machine (pageSize : Nat) : Machine ResourceRun ResourceCall where
  start s := s = { resource := { pageSize := pageSize } }
  step s call := some (s.next call)

end ResourceRun

end Fuxi.Mm
