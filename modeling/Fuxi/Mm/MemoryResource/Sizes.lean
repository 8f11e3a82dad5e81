import Fuxi.Mm.MemoryResource.Release

/-!
# Sizes near the end of the address space

Before it compares or asks for a size, the resource adds to it in 64-bit words. No request
makes `_last_page_allocated` wrap around, so that a sum goes wrong only if the size of the
request itself is near 2^64.
-/

namespace Fuxi.Mm

open Lib

namespace ExclusiveMonotonicBufferResource

variable {r : ExclusiveMonotonicBufferResource} {bytes alignment : Nat}

/-- No alignment moves what is used of the current page behind half of the address space. -/
structure Halved (r : ExclusiveMonotonicBufferResource) : Prop where
  pageSize_le : r.pageSize ≤ 2 ^ 63
  half : r.lastPageAllocated ≤ 2 ^ 63

/-- An array behind a request that it fits behind in a page ends there too. -/
theorem array_fits_half (le : r.pageSize ≤ 2 ^ 63) (fits : bytes + sizeofPageArray ≤ r.pageSize) :
    alignMask bytes alignofArray = alignUp bytes alignofArray ∧
      alignUp bytes alignofArray + sizeofPageArray ≤ 2 ^ 63 :=
  array_fits (by decide) le_rfl (fits.trans le)

namespace Halved

/-- The mask of `do_align` does not wrap around. -/
theorem align (h : Halved r) (pow : IsAlignment alignment) :
    alignMask r.lastPageAllocated alignment = alignUp r.lastPageAllocated alignment ∧
      alignUp r.lastPageAllocated alignment ≤ 2 ^ 63 := by
  have small : alignment ≤ 2 ^ 63 := le_of_isPowerOfTwo pow.1 pow.2
  have half := h.half
  refine ⟨alignMask_of_isPowerOfTwo pow.1 (by omega) pow.2, ?_⟩
  exact alignUp_le (Nat.pos_of_isPowerOfTwo pow.1) half (dvd_of_isPowerOfTwo pow.1 ⟨63, rfl⟩ small)

theorem doAllocateInNewPage (h : Halved r) (bytes alignment : Nat) (answers : Answers) :
    (r.doAllocateInNewPage bytes alignment answers).2.resource.lastPageAllocated ≤ 2 ^ 63 := by
  have limit := h.pageSize_le
  by_cases fits : bytes ≤ r.pageSize ∧ alignment ≤ r.pageSize
  · simp only [ExclusiveMonotonicBufferResource.doAllocateInNewPage, if_pos fits,
      doAllocateWithPageInNewPageArray]
    have size : sizeofPageArray = 128 := rfl
    have exact : u64 (bytes + sizeofPageArray) = bytes + sizeofPageArray := u64_of_lt (by omega)
    split_ifs with room tail behind
    · exact fits.1.trans limit
    · exact fits.1.trans limit
    · obtain ⟨same, ends⟩ := array_fits_half limit (exact ▸ behind)
      rw [same, u64_of_lt (by omega)]
      exact ends
    · exact show sizeofPageArray ≤ 2 ^ 63 by decide
  · rw [ExclusiveMonotonicBufferResource.doAllocateInNewPage, if_neg fits,
      doAllocateInOversizePage]
    split_ifs <;> exact h.half

theorem allocate (h : Halved r) (pow : IsAlignment alignment) (bytes : Nat)
    (answers : Answers) : Halved (r.allocate bytes alignment answers).2.resource := by
  have takes := r.allocate_takes bytes alignment answers
  refine ⟨takes.pageSize ▸ h.pageSize_le, ?_⟩
  obtain ⟨rounds, half⟩ := h.align pow
  by_cases fits : u64 (alignMask r.lastPageAllocated alignment + bytes) ≤ r.pageSize
  · rw [allocate_of_fits fits]
    exact fits.trans h.pageSize_le
  · rw [allocate_of_more fits, rounds]
    have aligned : Halved { r with
        lastPageAllocated := alignUp r.lastPageAllocated alignment
        spaceUsed := u64 (r.spaceUsed + bytes) } := ⟨h.pageSize_le, half⟩
    exact aligned.doAllocateInNewPage bytes alignment answers

theorem registerDestructor (h : Halved r) (task : DestroyTask) (answers : Answers) :
    Halved (r.registerDestructor task answers).resource := by
  unfold ExclusiveMonotonicBufferResource.registerDestructor
  split_ifs
  · exact ⟨h.pageSize_le, h.half⟩
  · have halved := h.allocate isAlignment_array sizeofDestroyTaskArray answers
    unfold registerInNewArray
    generalize r.allocate sizeofDestroyTaskArray alignofArray answers = served at halved ⊢
    exact ⟨halved.pageSize_le, halved.half⟩

end Halved

/-! ## What a request is answered with -/

/-- The size of a block that `do_allocate_in_oversize_page` asks for. -/
def blockBytes (r : ExclusiveMonotonicBufferResource) (bytes alignment : Nat) : Nat :=
  if r.lastOversizePageArray.room arrayCapacity then bytes
  else u64 (alignMask bytes (max alignment alignofArray) + sizeofOversizePageArray)

/-- What goes into a block with the request: nothing, or a new array. -/
def embedded (r : ExclusiveMonotonicBufferResource) : Nat :=
  if r.lastOversizePageArray.room arrayCapacity then 0 else sizeofOversizePageArray

/-- A request is answered from the current page only if it fits there, with a new page only if
it fits into one, and else with a block of at least its size. -/
structure AnswersInFull (r : ExclusiveMonotonicBufferResource) (bytes alignment : Nat)
    (outcome : Outcome) : Prop where
  currentPage : outcome.pages = [] → outcome.blocks = [] →
    alignUp r.lastPageAllocated alignment + bytes ≤ r.pageSize
  newPage : outcome.pages ≠ [] → bytes ≤ r.pageSize
  block : ∀ b ∈ outcome.blocks, bytes + embedded r ≤ b.bytes

/-- No sum with the size of the request wraps around to a size that is taken for enough. -/
structure NoWrap (r : ExclusiveMonotonicBufferResource) (bytes alignment : Nat) : Prop where
  request : alignUp r.lastPageAllocated alignment + bytes < 2 ^ 64 ∨
    2 ^ 64 + r.pageSize < alignUp r.lastPageAllocated alignment + bytes
  block : r.pageSize < alignUp r.lastPageAllocated alignment + bytes →
    r.pageSize < bytes ∨ r.pageSize < alignment →
      r.lastOversizePageArray.room arrayCapacity = false →
        alignUp bytes (max alignment alignofArray) + sizeofOversizePageArray < 2 ^ 64

theorem doAllocateInOversizePage_block (r : ExclusiveMonotonicBufferResource)
    (bytes alignment block : Nat) :
    (r.doAllocateInOversizePage bytes alignment block).2.pages = [] ∧
      ∃ b, (r.doAllocateInOversizePage bytes alignment block).2.blocks = [b] ∧
        b.bytes = r.blockBytes bytes alignment := by
  unfold doAllocateInOversizePage blockBytes
  split_ifs <;> exact ⟨rfl, _, rfl, rfl⟩

theorem doAllocateInNewPage_page (fits : bytes ≤ r.pageSize ∧ alignment ≤ r.pageSize)
    (answers : Answers) :
    (r.doAllocateInNewPage bytes alignment answers).2.pages ≠ [] ∧
      (r.doAllocateInNewPage bytes alignment answers).2.blocks = [] := by
  simp only [doAllocateInNewPage, if_pos fits, doAllocateWithPageInNewPageArray]
  split_ifs <;> simp

/-- The block has room for the request and the array exactly if no sum wraps around. -/
theorem le_blockBytes_iff (pow : IsAlignment alignment) (size : bytes < 2 ^ 64) :
    bytes + embedded r ≤ r.blockBytes bytes alignment ↔
      (r.lastOversizePageArray.room arrayCapacity = false →
        alignUp bytes (max alignment alignofArray) + sizeofOversizePageArray < 2 ^ 64) := by
  unfold embedded blockBytes
  by_cases room : r.lastOversizePageArray.room arrayCapacity = true
  · simp [room]
  · have full : r.lastOversizePageArray.room arrayCapacity = false := by simpa using room
    simp only [full, Bool.false_eq_true, if_false, forall_const]
    have pow' : (max alignment alignofArray).isPowerOfTwo :=
      max_isPowerOfTwo pow.1 alignofArray_pow
    have small' : max alignment alignofArray < 2 ^ 64 := max_lt pow.2 (by decide)
    have header : sizeofOversizePageArray = 368 := rfl
    by_cases wraps : 2 ^ 64 < bytes + max alignment alignofArray
    · rw [alignMask_of_wrap pow' size small' wraps]
      have beyond := le_alignUp_of_wrap pow' small' wraps
      rw [u64_of_lt (by omega)]
      omega
    · have le := le_alignUp bytes (Nat.pos_of_isPowerOfTwo pow')
      have lt := alignUp_lt bytes (Nat.pos_of_isPowerOfTwo pow')
      rw [alignMask_of_isPowerOfTwo pow' (by omega) small', u64]
      omega

theorem Halved.answersInFull_iff (h : Halved r) (pow : IsAlignment alignment)
    (size : bytes < 2 ^ 64) (answers : Answers) :
    AnswersInFull r bytes alignment (r.allocate bytes alignment answers).2 ↔
      NoWrap r bytes alignment := by
  obtain ⟨rounds, half⟩ := h.align pow
  have limit := h.pageSize_le
  by_cases fits : u64 (alignMask r.lastPageAllocated alignment + bytes) ≤ r.pageSize
  · rw [allocate_of_fits fits]
    rw [rounds, u64] at fits
    constructor
    · intro full
      have ends := full.currentPage rfl rfl
      exact ⟨Or.inl (by omega), fun more => absurd ends more.not_ge⟩
    · intro noWrap
      have request := noWrap.request
      exact ⟨fun _ _ => by omega, fun some => absurd rfl some,
        fun b mem => absurd mem List.not_mem_nil⟩
  · rw [allocate_of_more fits]
    rw [rounds, u64] at fits
    have request : alignUp r.lastPageAllocated alignment + bytes < 2 ^ 64 ∨
        2 ^ 64 + r.pageSize < alignUp r.lastPageAllocated alignment + bytes := by omega
    have more : r.pageSize < alignUp r.lastPageAllocated alignment + bytes := by omega
    by_cases small : bytes ≤ r.pageSize ∧ alignment ≤ r.pageSize
    · have page := doAllocateInNewPage_page (r := { r with
        lastPageAllocated := alignMask r.lastPageAllocated alignment
        spaceUsed := u64 (r.spaceUsed + bytes) }) small answers
      refine ⟨fun _ => ⟨request, fun _ large => ?_⟩, fun _ => ⟨?_, fun _ => small.1, ?_⟩⟩
      · omega
      · exact fun none => absurd none page.1
      · rw [page.2]
        exact fun b mem => absurd mem List.not_mem_nil
    · rw [ExclusiveMonotonicBufferResource.doAllocateInNewPage, if_neg small]
      obtain ⟨pages, b, blocks, asked⟩ := doAllocateInOversizePage_block { r with
        lastPageAllocated := alignMask r.lastPageAllocated alignment
        spaceUsed := u64 (r.spaceUsed + bytes) } bytes alignment answers.block
      have large : r.pageSize < bytes ∨ r.pageSize < alignment := by omega
      have asked : b.bytes = r.blockBytes bytes alignment := asked
      have enough := le_blockBytes_iff (r := r) pow size
      rw [← asked] at enough
      constructor
      · intro full
        refine ⟨request, fun _ _ => enough.mp (full.block b ?_)⟩
        rw [blocks]
        exact List.mem_singleton_self b
      · intro noWrap
        refine ⟨fun _ none => ?_, fun some => absurd pages some, fun b' mem => ?_⟩
        · rw [blocks] at none
          cases none
        · rw [blocks] at mem
          rw [List.mem_singleton.mp mem]
          exact enough.mpr (noWrap.block more large)

end ExclusiveMonotonicBufferResource

/-! ## Runs -/

namespace ResourceRun

open ExclusiveMonotonicBufferResource

variable {s : ResourceRun} {pageSize bytes alignment : Nat}

/-- Requests of any size, with a power of two as the alignment. -/
def requested (_ : ResourceRun) (call : ResourceCall) (_ : ResourceRun) : Prop :=
  match call with
  | .allocate bytes alignment _ => bytes < 2 ^ 64 ∧ IsAlignment alignment
  | .registerDestructor _ _ | .release => True

theorem halved_of_reach (le : pageSize ≤ 2 ^ 63)
    (h : (machine pageSize).Reach requested s) : Halved s.resource := by
  refine h.inv (P := fun s => Halved s.resource) ?_ fun s call s' halved hs ok => ?_
  · rintro s rfl
    exact ⟨le, show 4294967295 ≤ 2 ^ 63 by decide⟩
  · cases hs
    cases call with
    | allocate bytes alignment answers => exact halved.allocate ok.2 bytes answers
    | registerDestructor task answers => exact halved.registerDestructor task answers
    | release =>
      refine ⟨halved.pageSize_le, ?_⟩
      simp only [next, release]
      split
      · exact halved.half
      · exact show 4294967295 ≤ 2 ^ 63 by decide

/-- After any requests, the next one is answered in full exactly if no sum with its size wraps
around. -/
theorem answersInFull_iff_of_reach (le : pageSize ≤ 2 ^ 63)
    (h : (machine pageSize).Reach requested s) (size : bytes < 2 ^ 64)
    (power : IsAlignment alignment) (answers : Answers) :
    AnswersInFull s.resource bytes alignment (s.resource.allocate bytes alignment answers).2 ↔
      NoWrap s.resource bytes alignment :=
  (halved_of_reach le h).answersInFull_iff power size answers

instance (s s' : ResourceRun) : (call : ResourceCall) → Decidable (requested s call s')
  | .allocate bytes alignment _ =>
    inferInstanceAs (Decidable (bytes < 2 ^ 64 ∧ IsAlignment alignment))
  | .registerDestructor _ _ | .release => inferInstanceAs (Decidable True)

/-- The second page is full, and 9000 bytes are answered with a block of that size. -/
theorem answersInFull_iff_of_reach_fillTwoPages :
    ∃ s, (machine 4096).run { resource := { pageSize := 4096 } } fillTwoPages = some s ∧
      s.resource.lastPageAllocated = 4096 ∧
        AnswersInFull s.resource 9000 16 (s.resource.allocate 9000 16 ⟨0, 0, 262144⟩).2 := by
  have along : (machine 4096).Along requested { resource := { pageSize := 4096 } }
      fillTwoPages := by decide +kernel
  have seen : ((machine 4096).run { resource := { pageSize := 4096 } } fillTwoPages).map
      (fun s => s.resource.lastPageAllocated) = some 4096 := by decide +kernel
  obtain ⟨s, run, reach, allocated⟩ := Machine.Reach.of_along_seen (.start rfl) along seen
  refine ⟨s, run, allocated, ?_⟩
  have noWrap : NoWrap s.resource 9000 16 := by
    refine ⟨?_, fun _ _ _ => by decide⟩
    rw [allocated]
    exact Or.inl (by decide)
  exact (answersInFull_iff_of_reach (by decide) reach (by decide) ⟨⟨4, rfl⟩, by decide⟩ _).mpr
    noWrap

/-- After a request of 8 bytes, which opens a page and puts an array behind itself, one of
2^64 - 100 bytes is answered from that page, and what counts of the page goes back from 136 to
36. As the first request, one of 2^64 - 1 bytes is answered with a block of 368 bytes. -/
theorem allocate_wraps :
    (∃ s, (machine 4096).Reach requested s ∧
      ¬AnswersInFull s.resource (2 ^ 64 - 100) 1
        (s.resource.allocate (2 ^ 64 - 100) 1 ⟨0, 0, 0⟩).2) ∧
      ∃ s, (machine 4096).start s ∧
        ¬AnswersInFull s.resource (2 ^ 64 - 1) 1
          (s.resource.allocate (2 ^ 64 - 1) 1 ⟨0, 0, 131072⟩).2 := by
  constructor
  · have along : (machine 4096).Along requested { resource := { pageSize := 4096 } }
        [.allocate 8 1 ⟨65536, 0, 0⟩] := by decide +kernel
    obtain ⟨s, run, reach⟩ := Machine.Reach.of_along (.start rfl) along
    cases run
    refine ⟨_, reach, fun full => ?_⟩
    exact absurd (full.currentPage (by decide +kernel) (by decide +kernel)) (by decide +kernel)
  · refine ⟨_, rfl, fun full => ?_⟩
    have small := full.block ⟨131072, 368, 8⟩ (by decide +kernel)
    exact absurd small (by decide +kernel)

end ResourceRun

end Fuxi.Mm
