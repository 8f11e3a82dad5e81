import Fuxi.Shm.Arena.ShmArena
import Fuxi.Shm.Impl.Segment.Blocks

/-!
# Alignment of memory in blocks

The resource of an arena aligns offsets in a page and not addresses, and returns the start of a
page for every alignment up to the page size. So it relies on pages that start at a multiple of
their size. The pages of an arena are data buffers of a segment, which lie behind the tables of
the segment.
-/

namespace Fuxi.Shm.Arena

open Lib Mm ExclusiveMonotonicBufferResource Impl

variable {Tid : Type*}

/-- An arena, the segment in its process, and what the resource of the arena has returned. -/
structure SegmentArena (Tid : Type*) where
  segment : SegmentMetadata
  arena : ShmArena Tid
  returned : List Returned := []

/-- `allocate` on the resource, with the answer of the upstream, or another user of the segment
takes a block. -/
inductive SegmentCall (Tid : Type*)
  | allocate (thread : Tid) (bytes alignment block : Nat)
  | acquireElsewhere (msgSize : Nat)

/-- `AcquireBlockToWrite` as `ShmArena::allocate` calls it. -/
def acquireBlock (abi : Abi) (blockSize : Nat) (segment : SegmentMetadata) :
    SegmentMetadata × Option WritableBlock :=
  let got := segment.acquireBlockToWrite abi blockSize
  (got.1, got.2.bind fun block => block.buf.map fun buf => ⟨block.blockIndex, buf⟩)

/-- The segment after `num` such calls. -/
def acquireBlocks (abi : Abi) (blockSize : Nat) : Nat → SegmentMetadata → SegmentMetadata
  | 0, segment => segment
  | num + 1, segment => acquireBlocks abi blockSize num (acquireBlock abi blockSize segment).1

namespace SegmentArena

/-- The answers of the segment to one `allocate` on the resource. -/
def request (abi : Abi) (s : SegmentArena Tid) (thread : Tid) (bytes alignment block : Nat) :
    Request Tid :=
  let first := acquireBlock abi s.arena.blockSize s.segment
  let second := acquireBlock abi s.arena.blockSize first.1
  ⟨thread, bytes, alignment, first.2, second.2, block⟩

/-- What the resource does in one `allocate`. -/
def served (abi : Abi) (s : SegmentArena Tid) (thread : Tid) (bytes alignment block : Nat) :
    Nat × Outcome :=
  (s.arena.resource thread).allocate bytes alignment
    (s.arena.answers (s.request abi thread bytes alignment block))

/-- The state after a call. -/
def next [DecidableEq Tid] (abi : Abi) (s : SegmentArena Tid) : SegmentCall Tid → SegmentArena Tid
  | .allocate thread bytes alignment block =>
    let served := s.served abi thread bytes alignment block
    { segment := acquireBlocks abi s.arena.blockSize served.2.pages.length s.segment
      arena := s.arena.request (s.request abi thread bytes alignment block)
      returned := ⟨⟨served.1, bytes⟩, alignment⟩ :: s.returned }
  | .acquireElsewhere msgSize =>
    { s with segment := (s.segment.acquireBlockToWrite abi msgSize).1 }

/-- A new arena with the block size of the segment, which is attached at `head`. -/
def initialized (Tid : Type*) (p : Platform) (opt : SegmentOption) (head : Nat) :
    SegmentArena Tid where
  segment := Segment.opened p opt head
  arena := ShmArena.initialized Tid opt.blockSize

/-- The runs of such an arena. -/
def machine (Tid : Type*) [DecidableEq Tid] (p : Platform) (opt : SegmentOption) (head : Nat) :
    Machine (SegmentArena Tid) (SegmentCall Tid) where
  start s := s = initialized Tid p opt head
  step s call := some (s.next p.toAbi call)

/-- Every pointer is aligned as asked. -/
def Honours (s : SegmentArena Tid) : Prop :=
  ∀ a ∈ s.returned, a.alignment.isPowerOfTwo → a.alignment ∣ a.region.start

/-- The upstream aligns its blocks as asked, and an alignment is a `size_t`. -/
def promised (abi : Abi) (s : SegmentArena Tid) (call : SegmentCall Tid) (_ : SegmentArena Tid) :
    Prop :=
  match call with
  | .allocate thread bytes alignment block =>
    alignment < 18446744073709551616 ∧
      ∀ b ∈ (s.served abi thread bytes alignment block).2.blocks,
        b.alignment.isPowerOfTwo → b.alignment ∣ b.page
  | .acquireElsewhere _ => True

/-- The data buffers suit a request that a new page or the current page serves. An alignment
above the page size is served from the current page if that is still empty. -/
structure Suits (abi : Abi) (base : Nat) (s : SegmentArena Tid) (thread : Tid)
    (bytes alignment : Nat) : Prop where
  newPage :
    let r := s.arena.resource thread
    r.pageSize < u64 (alignMask r.lastPageAllocated alignment + bytes) →
      bytes ≤ r.pageSize → alignment ≤ r.pageSize →
        (acquireBlock abi s.arena.blockSize s.segment).2.isSome → alignment ∣ base
  currentPage :
    let r := s.arena.resource thread
    u64 (alignMask r.lastPageAllocated alignment + bytes) ≤ r.pageSize →
      r.lastPage ≠ 0 → alignment ≤ r.pageSize → alignment ∣ base
  largeAlignment :
    let r := s.arena.resource thread
    u64 (alignMask r.lastPageAllocated alignment + bytes) ≤ r.pageSize →
      r.pageSize < alignment → alignment ∣ r.lastPage

/-- The end of the bookkeeping of the segment suits each request for an alignment. -/
def suits (p : Platform) (opt : SegmentOption) (head : Nat) (s : SegmentArena Tid)
    (call : SegmentCall Tid) (_ : SegmentArena Tid) : Prop :=
  match call with
  | .allocate thread bytes alignment _ => alignment.isPowerOfTwo →
    Suits p.toAbi (Segment.blockBase p opt head) s thread bytes alignment
  | .acquireElsewhere _ => True

end SegmentArena

/-! ## The blocks of the segment -/

section Blocks

variable {p : Platform} {opt : SegmentOption} {head : Nat}

/-- The segment hands out the buffers that it had when it was opened. -/
structure Offers (p : Platform) (opt : SegmentOption) (head : Nat) (segment : SegmentMetadata) :
    Prop where
  ceiling : segment.state.ceilingMsgSize = u32 opt.blockSize
  buffers : segment.extent.blockBufAddrs = (Segment.opened p opt head).extent.blockBufAddrs

/-- A page that is a data buffer; there are none for larger messages than a `uint32_t`. -/
def IsBuffer (p : Platform) (opt : SegmentOption) (head page : Nat) : Prop :=
  page ∈ (Segment.opened p opt head).extent.blockBufAddrs ∧ opt.blockSize < 4294967296

theorem IsBuffer.dvd_iff {page alignment : Nat} (h : IsBuffer p opt head page)
    (block : opt.blockSize.isPowerOfTwo) (pow : alignment.isPowerOfTwo)
    (le : alignment ≤ opt.blockSize) : alignment ∣ page ↔ alignment ∣ Segment.blockBase p opt head := by
  have word : (4294967296 : Nat).isPowerOfTwo := ⟨32, rfl⟩
  exact Segment.dvd_buffer_iff (dvd_of_isPowerOfTwo pow word (le.trans h.2.le))
    (dvd_of_isPowerOfTwo pow block le) h.1

theorem Offers.acquireBlockToWrite {segment : SegmentMetadata} (h : Offers p opt head segment)
    (msgSize : Nat) : Offers p opt head (segment.acquireBlockToWrite p.toAbi msgSize).1 := by
  obtain ⟨state, buffers, -⟩ := segment.acquireBlockToWrite_spec p.toAbi msgSize
  exact ⟨state ▸ h.ceiling, buffers.trans h.buffers⟩

theorem Offers.acquireBlocks {segment : SegmentMetadata} (h : Offers p opt head segment)
    (num : Nat) : Offers p opt head (acquireBlocks p.toAbi opt.blockSize num segment) := by
  induction num generalizing segment with
  | zero => exact h
  | succ num ih => exact ih (h.acquireBlockToWrite opt.blockSize)

/-- The arena gets a data buffer or no block. -/
theorem Offers.isBuffer {segment : SegmentMetadata} (h : Offers p opt head segment)
    {block : WritableBlock} (got : (acquireBlock p.toAbi opt.blockSize segment).2 = some block) :
    IsBuffer p opt head block.buf := by
  obtain ⟨-, -, handed⟩ := segment.acquireBlockToWrite_spec p.toAbi opt.blockSize
  obtain ⟨b, mem, got⟩ := Option.bind_eq_some_iff.mp got
  obtain ⟨buf, mem', rfl⟩ := Option.map_eq_some_iff.mp got
  obtain ⟨fits, inBuffers⟩ := handed b mem
  rw [h.ceiling] at fits
  exact ⟨h.buffers ▸ inBuffers buf mem', fits.trans_lt (u32_lt _)⟩

end Blocks

namespace SegmentArena

variable {p : Platform} {opt : SegmentOption} {head : Nat} {s : SegmentArena Tid}

/-- The invariant of a run: pages are null or data buffers. -/
structure Inv (p : Platform) (opt : SegmentOption) (head : Nat) (s : SegmentArena Tid) : Prop where
  offers : Offers p opt head s.segment
  blockSize : s.arena.blockSize = opt.blockSize
  pageSize : ∀ t, (s.arena.resource t).pageSize = opt.blockSize
  lastPage : ∀ t, (s.arena.resource t).lastPage ≠ 0 →
    IsBuffer p opt head (s.arena.resource t).lastPage

/-! ## One request -/

/-- The page that a block answers, or null. -/
theorem allocatePage_page (a : ShmArena Tid) (answer : Option WritableBlock) :
    (a.allocatePage answer).2 = (answer.map WritableBlock.buf).getD 0 := by
  cases answer <;> rfl

theorem answers_page (abi : Abi) (s : SegmentArena Tid) (thread : Tid)
    (bytes alignment block : Nat) :
    (s.arena.answers (s.request abi thread bytes alignment block)).page =
      ((acquireBlock abi s.arena.blockSize s.segment).2.map WritableBlock.buf).getD 0 :=
  allocatePage_page ..

theorem Inv.isBuffer_of_page (h : Inv p opt head s) (thread : Tid) (bytes alignment block : Nat)
    {page : Nat} (pos : page ≠ 0)
    (mem : page ∈ [(s.arena.answers (s.request p.toAbi thread bytes alignment block)).page,
      (s.arena.answers (s.request p.toAbi thread bytes alignment block)).additionalPage]) :
    IsBuffer p opt head page := by
  have answered : ∀ {segment : SegmentMetadata}, Offers p opt head segment →
      page = ((acquireBlock p.toAbi opt.blockSize segment).2.map WritableBlock.buf).getD 0 →
        IsBuffer p opt head page := by
    rintro segment offers rfl
    cases got : (acquireBlock p.toAbi opt.blockSize segment).2 with
    | none =>
      rw [got] at pos
      exact absurd rfl pos
    | some b => exact offers.isBuffer got
  simp only [ShmArena.answers, request, h.blockSize, allocatePage_page] at mem
  obtain first | second := List.mem_pair.mp mem
  · exact answered h.offers first
  · exact answered (h.offers.acquireBlockToWrite opt.blockSize) second

section Request

variable {thread : Tid} {bytes alignment : Nat}

/-- A piece of the current page is aligned exactly if the page is. -/
theorem Inv.dvd_currentPage_iff (h : Inv p opt head s) (block : opt.blockSize.isPowerOfTwo)
    (pow : alignment.isPowerOfTwo) (word : alignment < 18446744073709551616)
    (fits : u64 (alignMask (s.arena.resource thread).lastPageAllocated alignment + bytes) ≤
      (s.arena.resource thread).pageSize) :
    alignment ∣ (s.arena.resource thread).lastPage +
        alignMask (s.arena.resource thread).lastPageAllocated alignment ↔
      Suits p.toAbi (Segment.blockBase p opt head) s thread bytes alignment := by
  have size := h.pageSize thread
  rw [Nat.dvd_add_left (dvd_alignMask _ pow word)]
  constructor
  · intro dvd
    refine ⟨fun more => absurd fits (not_le.mpr more), fun _ opened le => ?_, fun _ _ => dvd⟩
    exact ((h.lastPage thread opened).dvd_iff block pow (size ▸ le)).mp dvd
  · intro suits
    by_cases opened : (s.arena.resource thread).lastPage = 0
    · rw [opened]
      exact Nat.dvd_zero _
    · obtain le | large := le_or_gt alignment (s.arena.resource thread).pageSize
      · exact ((h.lastPage thread opened).dvd_iff block pow (size ▸ le)).mpr
          (suits.currentPage fits opened le)
      · exact suits.largeAlignment fits large

/-- The start of a new page is aligned exactly if the data buffers are, or there is no page. -/
theorem Inv.dvd_newPage_iff (h : Inv p opt head s) (block : opt.blockSize.isPowerOfTwo)
    (pow : alignment.isPowerOfTwo)
    (more : ¬u64 (alignMask (s.arena.resource thread).lastPageAllocated alignment + bytes) ≤
      (s.arena.resource thread).pageSize)
    (small : bytes ≤ (s.arena.resource thread).pageSize ∧
      alignment ≤ (s.arena.resource thread).pageSize) (upstream : Nat) :
    alignment ∣ (s.arena.answers (s.request p.toAbi thread bytes alignment upstream)).page ↔
      Suits p.toAbi (Segment.blockBase p opt head) s thread bytes alignment := by
  have size := h.pageSize thread
  rw [answers_page, h.blockSize]
  have page : ∀ b, (acquireBlock p.toAbi opt.blockSize s.segment).2 = some b →
      (alignment ∣ b.buf ↔ alignment ∣ Segment.blockBase p opt head) := fun b got =>
    (h.offers.isBuffer got).dvd_iff block pow (size ▸ small.2)
  constructor
  · intro dvd
    refine ⟨fun _ _ _ some => ?_, fun room => absurd room more, fun room => absurd room more⟩
    rw [h.blockSize] at some
    obtain ⟨b, got⟩ := Option.isSome_iff_exists.mp some
    rw [got] at dvd
    exact (page b got).mp dvd
  · intro suits
    have newPage := suits.newPage (not_le.mp more) small.1 small.2
    rw [h.blockSize] at newPage
    cases got : (acquireBlock p.toAbi opt.blockSize s.segment).2 with
    | none => exact Nat.dvd_zero _
    | some b =>
      rw [got] at newPage
      exact (page b got).mpr (newPage rfl)

/-- A block of the upstream is aligned as the request asks. -/
theorem dvd_upstream {r : ExclusiveMonotonicBufferResource} {answers : Answers}
    (pow : alignment.isPowerOfTwo)
    (aligned : ∀ b ∈ (r.allocate bytes alignment answers).2.blocks,
      b.alignment.isPowerOfTwo → b.alignment ∣ b.page)
    (more : ¬u64 (alignMask r.lastPageAllocated alignment + bytes) ≤ r.pageSize)
    (large : ¬(bytes ≤ r.pageSize ∧ alignment ≤ r.pageSize)) : alignment ∣ answers.block := by
  have pow' : (max alignment alignofArray).isPowerOfTwo := max_isPowerOfTwo pow alignofArray_pow
  obtain ⟨b, mem, page, same | larger⟩ := allocate_block answers more large
  · have dvd := aligned b mem (same ▸ pow)
    rwa [same, page] at dvd
  · have dvd := aligned b mem (larger ▸ pow')
    rw [larger, page] at dvd
    exact (dvd_of_isPowerOfTwo pow pow' (le_max_left _ _)).trans dvd

/-- A request gets an aligned pointer exactly if the data buffers suit it. -/
theorem Inv.dvd_served_iff (h : Inv p opt head s) (block : opt.blockSize.isPowerOfTwo)
    {upstream : Nat} (pow : alignment.isPowerOfTwo)
    (kept : s.promised p.toAbi (.allocate thread bytes alignment upstream) s) :
    alignment ∣ (s.served p.toAbi thread bytes alignment upstream).1 ↔
      Suits p.toAbi (Segment.blockBase p opt head) s thread bytes alignment := by
  obtain ⟨word, aligned⟩ := kept
  rw [served, allocate_start]
  split_ifs with fits small
  · exact h.dvd_currentPage_iff block pow word fits
  · exact h.dvd_newPage_iff block pow fits small upstream
  · exact iff_of_true (dvd_upstream pow aligned fits small) ⟨fun _ fit le =>
      absurd ⟨fit, le⟩ small, fun room => absurd room fits, fun room => absurd room fits⟩

end Request

/-! ## Runs -/

variable [DecidableEq Tid]

theorem next_resource (abi : Abi) (s : SegmentArena Tid) (thread : Tid)
    (bytes alignment block : Nat) (t : Tid) :
    (s.next abi (.allocate thread bytes alignment block)).arena.resource t =
      if t = thread then (s.served abi thread bytes alignment block).2.resource
      else s.arena.resource t :=
  s.arena.request_resource _ t

theorem Inv.next (h : Inv p opt head s) (call : SegmentCall Tid) :
    Inv p opt head (s.next p.toAbi call) := by
  cases call with
  | acquireElsewhere msgSize =>
    exact ⟨h.offers.acquireBlockToWrite msgSize, h.blockSize, h.pageSize, h.lastPage⟩
  | allocate thread bytes alignment block =>
    refine ⟨?_, (s.arena.acquire_spec _ _).1.trans h.blockSize, fun t => ?_, fun t => ?_⟩
    · simp only [SegmentArena.next, h.blockSize]
      exact h.offers.acquireBlocks _
    · have takes := (s.arena.resource thread).allocate_takes bytes alignment
        (s.arena.answers (s.request p.toAbi thread bytes alignment block))
      rw [next_resource]
      split_ifs
      · exact takes.pageSize.trans (h.pageSize thread)
      · exact h.pageSize t
    · have lastPage := (s.arena.resource thread).allocate_lastPage bytes alignment
        (s.arena.answers (s.request p.toAbi thread bytes alignment block))
      rw [next_resource]
      split_ifs
      · intro opened
        obtain old | new := List.mem_cons.mp lastPage
        · exact old ▸ h.lastPage thread (old ▸ opened)
        · exact h.isBuffer_of_page thread bytes alignment block opened new
      · exact h.lastPage t

theorem Honours.next_iff (h : Inv p opt head s) (block : opt.blockSize.isPowerOfTwo)
    {call : SegmentCall Tid} (kept : s.promised p.toAbi call (s.next p.toAbi call)) :
    (s.next p.toAbi call).Honours ↔
      s.Honours ∧ s.suits p opt head call (s.next p.toAbi call) := by
  cases call with
  | acquireElsewhere msgSize => exact (and_iff_left trivial).symm
  | allocate thread bytes alignment upstream =>
    refine List.forall_mem_cons.trans (and_comm.trans (and_congr_right fun _ => ?_))
    exact forall_congr' fun pow => h.dvd_served_iff block pow kept

/-- In every run all pointers are aligned as asked exactly if the end of the bookkeeping suits
every request. -/
theorem honours_iff_of_run (block : opt.blockSize.isPowerOfTwo) {calls : List (SegmentCall Tid)}
    (kept : (machine Tid p opt head).Along (promised p.toAbi) (initialized Tid p opt head) calls)
    (run : (machine Tid p opt head).run (initialized Tid p opt head) calls = some s) :
    s.Honours ↔
      (machine Tid p opt head).Along (suits p opt head) (initialized Tid p opt head) calls := by
  have start : Inv p opt head (initialized Tid p opt head) :=
    ⟨⟨Segment.opened_ceiling p opt head, rfl⟩, rfl, fun _ => rfl, fun _ opened => absurd rfl opened⟩
  refine (kept.holds_iff run start fun s call s' inv step kept => ?_).trans (and_iff_right ?_)
  · cases step
    exact ⟨inv.next call, Honours.next_iff inv block kept⟩
  · exact fun _ => nofun

instance (abi : Abi) (s s' : SegmentArena Tid) (call : SegmentCall Tid) :
    Decidable (s.promised abi call s') :=
  match call with
  | .allocate .. => inferInstanceAs (Decidable (_ ∧ ∀ b ∈ _, _ → _))
  | .acquireElsewhere _ => .isTrue trivial

instance (abi : Abi) (base : Nat) (s : SegmentArena Tid) (thread : Tid) (bytes alignment : Nat) :
    Decidable (Suits abi base s thread bytes alignment) :=
  let r := s.arena.resource thread
  decidable_of_iff
    ((r.pageSize < u64 (alignMask r.lastPageAllocated alignment + bytes) →
        bytes ≤ r.pageSize → alignment ≤ r.pageSize →
          (acquireBlock abi s.arena.blockSize s.segment).2.isSome → alignment ∣ base) ∧
      (u64 (alignMask r.lastPageAllocated alignment + bytes) ≤ r.pageSize →
        r.lastPage ≠ 0 → alignment ≤ r.pageSize → alignment ∣ base) ∧
      (u64 (alignMask r.lastPageAllocated alignment + bytes) ≤ r.pageSize →
        r.pageSize < alignment → alignment ∣ r.lastPage))
    ⟨fun ⟨new, current, large⟩ => ⟨new, current, large⟩,
      fun ⟨new, current, large⟩ => ⟨new, current, large⟩⟩

instance (s s' : SegmentArena Tid) (call : SegmentCall Tid) :
    Decidable (s.suits p opt head call s') :=
  match call with
  | .allocate .. => inferInstanceAs (Decidable (_ → Suits ..))
  | .acquireElsewhere _ => .isTrue trivial

/-- Ten blocks of a page. -/
def tenBlocks : SegmentOption := ⟨0x520000000000, 1048576, 10, 4096⟩

/-- Requests for up to 8 bytes from two threads, and one that is too large for a block. -/
def moderate : List (SegmentCall Nat) :=
  [.allocate 0 100 8 0, .acquireElsewhere 4096, .allocate 1 24 4 0, .allocate 0 3 2 0,
    .allocate 1 8192 4096 0x700000000000, .allocate 0 4000 8 0]

/-- All of them are aligned. -/
theorem honours_iff_of_run_moderate :
    ∃ s, (machine Nat Segment.linux tenBlocks 0x520000000000).run
        (initialized Nat Segment.linux tenBlocks 0x520000000000) moderate = some s ∧
      s.returned.map (fun a => a.region.start) =
        [0x520000005518, 0x700000000000, 0x520000002600, 0x520000004518, 0x520000002518] ∧
      s.Honours := by
  have seen : ((machine Nat Segment.linux tenBlocks 0x520000000000).run
      (initialized Nat Segment.linux tenBlocks 0x520000000000) moderate).map
        (fun s => s.returned.map fun a => a.region.start) = some
          [0x520000005518, 0x700000000000, 0x520000002600, 0x520000004518, 0x520000002518] := by
    decide +kernel
  obtain ⟨s, run, eq⟩ := Option.map_eq_some_iff.mp seen
  have block : tenBlocks.blockSize.isPowerOfTwo := ⟨12, rfl⟩
  exact ⟨s, run, eq, (honours_iff_of_run block (by decide +kernel) run).mpr (by decide +kernel)⟩

/-- The first request for a whole page, with the alignment of a page. -/
def wholePage : List (SegmentCall Nat) := [.allocate 0 4096 4096 0]

/-- The start of the first data buffer is returned, which is aligned to 8 bytes. -/
theorem wholePage_misaligned :
    Segment.linux.pageSize ∣ 0x520000000000 ∧
      (machine Nat Segment.linux tenBlocks 0x520000000000).Along (promised Segment.linux.toAbi)
        (initialized Nat Segment.linux tenBlocks 0x520000000000) wholePage ∧
      ∃ s, (machine Nat Segment.linux tenBlocks 0x520000000000).run
          (initialized Nat Segment.linux tenBlocks 0x520000000000) wholePage = some s ∧
        ¬s.Honours := by
  have seen : ((machine Nat Segment.linux tenBlocks 0x520000000000).run
      (initialized Nat Segment.linux tenBlocks 0x520000000000) wholePage).map
        (fun s => s.returned.map fun a => (a.alignment, a.region.start)) =
          some [(4096, 0x520000002518)] := by
    decide +kernel
  obtain ⟨s, run, eq⟩ := Option.map_eq_some_iff.mp seen
  refine ⟨by decide, by decide +kernel, s, run, fun honours => ?_⟩
  obtain ⟨a, mem, pair⟩ := List.mem_map.mp (eq ▸ List.mem_singleton_self _)
  obtain ⟨alignment, start⟩ := Prod.mk.inj pair
  have dvd := honours a mem (alignment ▸ ⟨12, rfl⟩)
  rw [alignment, start] at dvd
  exact absurd dvd (by decide)

end SegmentArena

end Fuxi.Shm.Arena
