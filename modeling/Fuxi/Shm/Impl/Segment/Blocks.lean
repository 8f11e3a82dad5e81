import Fuxi.Shm.Impl.Extent
import Fuxi.Shm.Impl.Segment

/-!
# Where the blocks of a segment lie

A process makes its `Extent` from the layout that it finds behind the head guard page, and
`Segment::AcquireBlockToWrite` hands out the data buffers of that extent. They lie behind the
bookkeeping, one block size from each other.
-/

namespace Fuxi.Shm.Impl

open Lib Base

/-- `SegmentMetadata`, as far as the blocks are concerned: the state in the layout and the
extent. -/
structure SegmentMetadata where
  state : SegmentState
  extent : Extent

/-- `MakeExtent` of the layout at address `this`. -/
def SegmentLayout.makeExtent (abi : Abi) (this : Nat) (l : SegmentLayout) : Extent :=
  Extent.initialized abi (this + abi.segmentLayout.data + l.extentOffset) l.extent

/-- `Segment::AcquireBlockToWrite` of a segment that is open. -/
def SegmentMetadata.acquireBlockToWrite (abi : Abi) (s : SegmentMetadata) (msgSize : Nat) :
    SegmentMetadata × Option WritableBlock :=
  if s.state.ceilingMsgSize < msgSize then (s, none)
  else
    let got := s.extent.acquireBlockToWrite abi
    ({ s with extent := got.1 }, got.2)

/-- A call leaves the state and the buffers alone and hands out a buffer only for a message that
is not too large. -/
theorem SegmentMetadata.acquireBlockToWrite_spec (abi : Abi) (s : SegmentMetadata) (msgSize : Nat) :
    let got := s.acquireBlockToWrite abi msgSize
    got.1.state = s.state ∧ got.1.extent.blockBufAddrs = s.extent.blockBufAddrs ∧
      ∀ block ∈ got.2, msgSize ≤ s.state.ceilingMsgSize ∧
        ∀ addr ∈ block.buf, addr ∈ s.extent.blockBufAddrs := by
  simp only [acquireBlockToWrite]
  split_ifs with large
  · exact ⟨rfl, rfl, by simp⟩
  · refine ⟨rfl, rfl, fun block mem => ⟨not_lt.mp large, fun addr buf => ?_⟩⟩
    obtain ⟨index, -, rfl⟩ := Option.map_eq_some_iff.mp mem
    exact List.mem_of_getElem? buf

namespace Segment

/-- The metadata in a process that has attached the segment at `head` and created it. -/
def opened (p : Platform) (opt : SegmentOption) (head : Nat) : SegmentMetadata :=
  let managed := head + p.pageSize
  let layout := ((construct p opt).initPreOpen.2.initPostCreate p managed 0).1
  ⟨layout.state, layout.makeExtent p.toAbi managed⟩

/-- `BlockNum` of a segment that has been created. -/
def blockNum (p : Platform) (opt : SegmentOption) : Nat :=
  u32 (construct p opt).initPreOpen.2.opt.blockNum

/-- The address behind the bookkeeping of a segment that is attached at `head`. -/
def blockBase (p : Platform) (opt : SegmentOption) (head : Nat) : Nat :=
  head + p.pageSize + SegmentLayout.bookkeeping p.toAbi (blockNum p opt)

end Segment

/-- The extent of a new layout. -/
theorem SegmentLayout.makeExtent_initialized (abi : Abi) (this : Nat) (opt : SegmentOption) :
    let num := u32 opt.blockNum
    let size := u32 opt.blockSize
    let extent := this + extentStart abi num
    (initialized abi this {} opt).1.makeExtent abi this =
      Extent.mapped abi extent ⟨extent - (this + abi.segmentLayout.data), extent,
        ExtentLayout.getRequestSize abi num size, num, size⟩ := by
  obtain ⟨ids, objects, both⟩ := used_in_front abi (u32_lt opt.blockNum)
  simp only [initialized, allocate, Bool.false_eq_true, if_false, Nat.add_zero, Nat.zero_add,
    makeExtent, Extent.mapped, ids, objects, both]
  simp only [extentStart, Nat.add_assoc]
  congr 1
  omega

/-- The addresses of the buffers of a new extent. -/
theorem Extent.exists_of_mem_blockBufAddrs {abi : Abi} {this addr : Nat} {opt : ExtentOption}
    (base : opt.baseAddr ≠ 0) (mem : addr ∈ (mapped abi this opt).blockBufAddrs) :
    ∃ i, addr = this + abi.extentLayout.data +
      u32 (ExtentLayout.freeBlockIdsSize (u32 opt.blockNum) + abi.block * u32 opt.blockNum) +
        u32 (i * u32 opt.blockSize) := by
  have region := List.mem_map_of_mem
    (f := fun addr => (⟨addr, (mapped abi this opt).layout.blockBufferSize⟩ : Region)) mem
  change _ ∈ (mapped abi this opt).buffers at region
  rw [mapped_buffers abi this base, ExtentLayout.blockBuffers] at region
  obtain ⟨i, -, eq⟩ := List.mem_map.mp region
  exact ⟨i, (Region.mk.inj eq).1.symm⟩

namespace Segment

variable {p : Platform} {opt : SegmentOption} {head : Nat}

theorem initPreOpen_blockSize (p : Platform) (opt : SegmentOption) :
    (construct p opt).initPreOpen.2.opt.blockSize = opt.blockSize := by
  simp only [initPreOpen]
  split_ifs <;> rfl

theorem opened_ceiling (p : Platform) (opt : SegmentOption) (head : Nat) :
    (opened p opt head).state.ceilingMsgSize = u32 opt.blockSize := by
  rw [← initPreOpen_blockSize p opt]
  rfl

/-- The extent lies behind the rings and the objects. -/
theorem opened_extent (p : Platform) (opt : SegmentOption) (head : Nat) :
    let num := blockNum p opt
    let this := head + p.pageSize
    let extent := this + SegmentLayout.extentStart p.toAbi num
    (opened p opt head).extent =
      Extent.mapped p.toAbi extent ⟨extent - (this + p.segmentLayout.data), extent,
        ExtentLayout.getRequestSize p.toAbi num (u32 opt.blockSize), num, u32 opt.blockSize⟩ := by
  have placed := SegmentLayout.makeExtent_initialized p.toAbi (head + p.pageSize)
    (construct p opt).initPreOpen.2.opt
  rw [initPreOpen_blockSize] at placed
  exact placed

/-- The buffers lie one block size from each other behind the bookkeeping, the size of which
in the extent is a `uint32_t`. -/
theorem exists_of_mem_blockBufAddrs {addr : Nat}
    (mem : addr ∈ (opened p opt head).extent.blockBufAddrs) :
    ∃ data tables i, 0 < data ∧ data + tables = blockBase p opt head ∧
      addr = data + u32 tables + u32 (i * u32 opt.blockSize) := by
  have pos := p.segmentLayout.data_pos
  have start : p.segmentLayout.data ≤ SegmentLayout.extentStart p.toAbi (blockNum p opt) := by
    rw [SegmentLayout.extentStart, Nat.add_assoc]
    exact Nat.le_add_right ..
  rw [opened_extent] at mem
  obtain ⟨i, rfl⟩ := Extent.exists_of_mem_blockBufAddrs (by simp only; omega) mem
  have num : u32 (blockNum p opt) = blockNum p opt := u32_u32 _
  simp only [num, u32_u32]
  refine ⟨_, _, i, ?_, ?_, rfl⟩
  · omega
  · rw [blockBase, SegmentLayout.bookkeeping]
    omega

/-- Up to the block size the buffers are aligned as the end of the bookkeeping is. -/
theorem dvd_buffer_iff {alignment addr : Nat} (word : alignment ∣ 4294967296)
    (size : alignment ∣ opt.blockSize) (mem : addr ∈ (opened p opt head).extent.blockBufAddrs) :
    alignment ∣ addr ↔ alignment ∣ blockBase p opt head := by
  obtain ⟨data, tables, i, -, base, rfl⟩ := exists_of_mem_blockBufAddrs mem
  have block : alignment ∣ u32 opt.blockSize := by
    have same := dvd_add_u32_iff word 0 opt.blockSize
    rw [Nat.zero_add, Nat.zero_add] at same
    exact same.mpr size
  rw [dvd_add_u32_iff word, Nat.dvd_add_left (block.mul_left i), dvd_add_u32_iff word, base]

/-- On a 64-bit Linux the bookkeeping ends 8 bytes behind a multiple of 16, for every option. -/
theorem blockBase_linux (opt : SegmentOption) (page : linux.pageSize ∣ head) :
    blockBase linux opt head % 16 = 8 := by
  simp only [blockBase, SegmentLayout.bookkeeping, SegmentLayout.extentStart]
  generalize blockNum linux opt = num
  have ids : 128 ∣ SegmentLayout.freeIdsSize num := RteRing.dvd_placementStorageSize ..
  have indices : 128 ∣ ExtentLayout.freeBlockIdsSize num := RteRing.dvd_placementStorageSize ..
  have objects := dvd_alignUp (216 * num) 128
  simp only [linux] at page ⊢
  omega

/-- There the buffers are aligned to 8 bytes, and to no more. -/
theorem dvd_blockBase_linux_iff (opt : SegmentOption) (page : linux.pageSize ∣ head)
    {alignment : Nat} (pow : alignment.isPowerOfTwo) :
    alignment ∣ blockBase linux opt head ↔ alignment ≤ 8 := by
  have rest := blockBase_linux opt page
  constructor
  · intro dvd
    by_contra! more
    have pow16 : (16 : Nat).isPowerOfTwo := ⟨4, rfl⟩
    have large : 16 ≤ alignment := by
      by_contra! less
      exact absurd (le_of_isPowerOfTwo pow (k := 3) less) (by omega)
    have := (dvd_of_isPowerOfTwo pow16 pow large).trans dvd
    omega
  · intro small
    have pow8 : (8 : Nat).isPowerOfTwo := ⟨3, rfl⟩
    exact (dvd_of_isPowerOfTwo pow pow8 small).trans (by omega)

end Segment

end Fuxi.Shm.Impl
