import Fuxi.Shm.Impl.ExtentLayout

/-!
# The contents of a segment

`Segment` derives the number of blocks from the space between its two guard pages, and
`SegmentLayout::Init` places the pool of objects and the extent in that space. The number
of blocks is the space divided by the block size, so nothing is set aside for the layouts,
the rings, the objects and the `Block` table.
-/

namespace Fuxi.Shm.Impl

open Lib Base

structure SegmentOption where
  baseAddr : Nat := 0
  spaceSize : Nat := 0
  blockNum : Nat := 0
  blockSize : Nat := 0

structure SegmentState where
  inited : Bool := false
  shmId : Int := 0
  referenceCount : Int := 0
  ceilingMsgSize : Nat := 0
  segmentBaseAddr : Nat := 0
  segmentSize : Nat := 0

/-- `SetSegmentSpan`. -/
def SegmentState.setSegmentSpan (s : SegmentState) (baseAddr size : Nat) : SegmentState :=
  if s.inited then s else { s with segmentBaseAddr := baseAddr, segmentSize := size }

/-- `objectPool` is the ring `free_ids_` of `object_pool`, and `extent` is the `ExtentLayout`
that lies `extentOffset` bytes behind `data`. -/
structure SegmentLayout where
  magicHeader : Nat := 0
  blockSize : Nat := 0
  blockNum : Nat := 0
  headerSize : Nat := 0
  init : Bool := false
  spaceSize : Nat := 0
  spaceUsed : Nat := 0
  state : SegmentState := {}
  objectPool : RteRing Int := RteRing.blank 0
  extentOffset : Nat := 0
  extent : ExtentLayout := {}

namespace SegmentLayout

/-- `ShmMeta::SEGMENT_MAGIC_HEADER`. -/
def segmentMagicHeader : Nat := 0x1F1F1F1F1F1F1F1F

/-- `Allocate` of the layout at address `this`: the pointer and the layout after that. -/
def allocate (abi : Abi) (this : Nat) (l : SegmentLayout) (size alignment : Nat) :
    Nat × SegmentLayout :=
  (this + abi.segmentLayout.data + l.spaceUsed,
    { l with spaceUsed := u64 (l.spaceUsed + alignMask size (bitCeil alignment)) })

/-- `FlatObjectQueue<ShmObject>::GetStorageSchema`: the storage of the free ids. -/
def freeIdsSize (num : Nat) : Nat := RteRing.placementStorageSize 4 num

/-- `Init` of the layout at address `this`, with every region in which something has been
constructed when it returns, this layout included. -/
def initialized (abi : Abi) (this : Nat) (l : SegmentLayout) (opt : SegmentOption) :
    SegmentLayout × List Region :=
  if l.init then (l, [])
  else
    let num := u32 opt.blockNum
    let size := u32 opt.blockSize
    let filled := { l with
      headerSize := u16 abi.segmentLayout.size
      magicHeader := segmentMagicHeader
      blockNum := num
      blockSize := size
      spaceSize := opt.spaceSize
      state := { l.state.setSegmentSpan this opt.spaceSize with ceilingMsgSize := size } }
    let ids := filled.allocate abi this (freeIdsSize num) 128
    let objects := ids.2.allocate abi this (u64 (abi.shmObject * num)) 128
    let extentSize := ExtentLayout.getRequestSize abi num size
    let base := objects.2.allocate abi this extentSize 128
    let extentOffset := base.1 - (this + abi.segmentLayout.data)
    let extent := ExtentLayout.init abi base.1 {} ⟨extentOffset, base.1, extentSize, num, size⟩
    ({ base.2 with
        objectPool := (FlatObjectQueue.initialized num).1
        extentOffset := extentOffset
        extent := extent.2.1
        init := true },
      ⟨this, abi.segmentLayout.size⟩ :: ⟨ids.1, freeIdsSize num⟩ ::
        ⟨objects.1, abi.shmObject * num⟩ :: ⟨base.1, abi.extentLayout.size⟩ :: extent.2.2)

/-- `Allocate` hands out whole lines. -/
theorem alignMask_line {size : Nat} (h : size + 128 ≤ 18446744073709551616) :
    alignMask size (bitCeil 128) = alignUp size 128 := by
  have line : bitCeil 128 = 2 ^ 7 := by decide
  rw [line]
  exact alignMask_eq (by decide) h

/-- The bytes in front of the extent. -/
def extentStart (abi : Abi) (num : Nat) : Nat :=
  abi.segmentLayout.data + freeIdsSize num + alignUp (abi.shmObject * num) 128

/-- No sum wraps around in front of the extent, where everything takes whole lines. -/
theorem used_in_front (abi : Abi) {num : Nat} (small : num < 4294967296) :
    u64 (alignMask (freeIdsSize num) (bitCeil 128)) = freeIdsSize num ∧
      alignMask (u64 (abi.shmObject * num)) (bitCeil 128) = alignUp (abi.shmObject * num) 128 ∧
        u64 (freeIdsSize num + alignUp (abi.shmObject * num) 128) =
          freeIdsSize num + alignUp (abi.shmObject * num) 128 := by
  have ids : freeIdsSize num < 34359738368 + 128 :=
    RteRing.placementStorageSize_lt (by decide) small
  have lines : alignUp (freeIdsSize num) 128 = freeIdsSize num :=
    alignUp_of_dvd (by decide) (RteRing.dvd_placementStorageSize ..)
  have objects : abi.shmObject * num ≤ 65536 * 4294967296 :=
    Nat.mul_le_mul abi.shmObject_small.le small.le
  have rounded := alignUp_lt (abi.shmObject * num) (show 0 < 128 by decide)
  refine ⟨?_, ?_, u64_of_lt (by omega)⟩
  · rw [alignMask_line (by omega), lines, u64_of_lt (by omega)]
  · rw [u64_of_lt (by omega), alignMask_line (by omega)]

/-- Where a new layout puts its parts. -/
theorem initialized_regions (abi : Abi) (this : Nat) (opt : SegmentOption) :
    (initialized abi this {} opt).2 =
      let num := u32 opt.blockNum
      let data := this + abi.segmentLayout.data
      let extent := this + extentStart abi num
      let extentData := extent + abi.extentLayout.data
      let table := extentData + ExtentLayout.freeBlockIdsSize num
      ⟨this, abi.segmentLayout.size⟩ :: ⟨data, freeIdsSize num⟩ ::
        ⟨data + freeIdsSize num, abi.shmObject * num⟩ :: ⟨extent, abi.extentLayout.size⟩ ::
        ⟨extentData, ExtentLayout.freeBlockIdsSize num⟩ :: ⟨table, abi.block * num⟩ ::
        ExtentLayout.blockBuffers (table + abi.block * num) num (u32 opt.blockSize) := by
  obtain ⟨ids, objects, both⟩ := used_in_front abi (u32_lt opt.blockNum)
  have pos := abi.segmentLayout.data_pos
  simp only [initialized, allocate, Bool.false_eq_true, if_false, Nat.add_zero, Nat.zero_add, ids,
    objects, both]
  rw [ExtentLayout.init_regions abi _ (by simp only; omega)]
  simp only [u32_u32, extentStart, Nat.add_assoc]

/-- The bytes in front of the data buffers. -/
def bookkeeping (abi : Abi) (num : Nat) : Nat :=
  extentStart abi num + abi.extentLayout.data + ExtentLayout.freeBlockIdsSize num +
    abi.block * num

/-- Everything ends in time exactly when the data buffers do, which are placed last. -/
theorem initialized_stop_le_iff (abi : Abi) (this space : Nat) (opt : SegmentOption) :
    (∀ r ∈ (initialized abi this {} opt).2, r.stop ≤ this + space) ↔
      bookkeeping abi (u32 opt.blockNum) +
        ExtentLayout.dataSpan (u32 opt.blockNum) (u32 opt.blockSize) ≤ space := by
  have ids := RteRing.le_placementStorageSize (u32 opt.blockNum) (show 0 < 4 by decide)
  have indices := RteRing.le_placementStorageSize (u32 opt.blockNum) (show 0 < 2 by decide)
  have objects := le_alignUp (abi.shmObject * u32 opt.blockNum) (show 0 < 128 by decide)
  have segmentPadding := abi.segmentLayout.size_lt
  have extentPadding := abi.extentLayout.size_lt
  simp only [initialized_regions, List.forall_mem_cons, Region.stop, bookkeeping, extentStart,
    freeIdsSize, ExtentLayout.freeBlockIdsSize]
  constructor
  · rintro ⟨-, -, -, -, -, table, buffers⟩
    have := (ExtentLayout.blockBuffers_stop_le_iff table).mp buffers
    omega
  · intro fits
    refine ⟨by omega, by omega, by omega, by omega, by omega, by omega, ?_⟩
    exact (ExtentLayout.blockBuffers_stop_le_iff (by omega)).mpr (by omega)

end SegmentLayout

/-- The compiler and the page size of the system. -/
structure Platform extends Abi where
  pageSize : Nat
  pageSize_small : pageSize < 4294967296

structure Segment where
  opt : SegmentOption
  pageSize : Nat
  segmentBaseAddr : Nat := 0

namespace Segment

/-- `SegmentProtectionSapceSize`. -/
def segmentProtectionSapceSize (pageSize : Nat) : Nat := u64 (pageSize * 2)

/-- The constructor adds the guard pages to the space that the option asks for. -/
def construct (p : Platform) (opt : SegmentOption) : Segment where
  opt := { opt with
    spaceSize := u64 (opt.spaceSize + segmentProtectionSapceSize p.pageSize) }
  pageSize := p.pageSize

/-- `InitPreOpen`; its callers ignore the result. -/
def initPreOpen (s : Segment) : Bool × Segment :=
  if s.opt.spaceSize < segmentProtectionSapceSize s.pageSize then (false, s)
  else
    let blockNum :=
      u32 ((s.opt.spaceSize - segmentProtectionSapceSize s.pageSize) / s.opt.blockSize)
    let opt :=
      if blockNum < s.opt.blockNum ∨ s.opt.blockNum = 0 then
        { s.opt with blockNum := blockNum }
      else s.opt
    (true, { s with opt := opt, segmentBaseAddr := opt.baseAddr })

/-- `InitPostCreate` with `managed_shm_header_` and `shm_id_` from `OpenOrCreate`. -/
def initPostCreate (p : Platform) (s : Segment) (managed : Nat) (shmId : Int) :
    SegmentLayout × List Region :=
  let placed := SegmentLayout.initialized p.toAbi managed {} s.opt
  let state := placed.1.state
  ({ placed.1 with
      state := { state with
        referenceCount := i32 (state.referenceCount + 1)
        shmId := shmId
        inited := true } },
    placed.2)

/-- The regions that are in use once a process has created the segment. -/
def contents (p : Platform) (opt : SegmentOption) (managed : Nat) : List Region :=
  ((construct p opt).initPreOpen.2.initPostCreate p managed 0).2

/-- The number of blocks for an option: as many as the space divided by the block size
gives, or fewer if the option asks for fewer. -/
def blocksFor (opt : SegmentOption) : Nat :=
  if opt.blockNum = 0 then u32 (opt.spaceSize / opt.blockSize)
  else min (u32 (opt.spaceSize / opt.blockSize)) opt.blockNum

/-- The option after `InitPreOpen`. -/
theorem initPreOpen_construct (p : Platform) {opt : SegmentOption}
    (small : opt.spaceSize < 2 ^ 40) :
    ((construct p opt).initPreOpen).2.opt = { opt with
      blockNum := blocksFor opt
      spaceSize := opt.spaceSize + 2 * p.pageSize } := by
  have page := p.pageSize_small
  have guards : segmentProtectionSapceSize p.pageSize = 2 * p.pageSize := by
    rw [segmentProtectionSapceSize, u64_of_lt (by omega), Nat.mul_comm]
  have space : u64 (opt.spaceSize + 2 * p.pageSize) = opt.spaceSize + 2 * p.pageSize :=
    u64_of_lt (by omega)
  have enough : ¬opt.spaceSize + 2 * p.pageSize < 2 * p.pageSize := by omega
  simp only [initPreOpen, construct, guards, space, enough, if_false, Nat.add_sub_cancel,
    blocksFor]
  by_cases derived : opt.blockNum = 0
  · simp [derived]
  · by_cases fewer : u32 (opt.spaceSize / opt.blockSize) < opt.blockNum
    · simp [derived, fewer, fewer.le]
    · simp [derived, fewer, Nat.min_eq_right (Nat.le_of_not_lt fewer)]

theorem blocksFor_lt (opt : SegmentOption) : blocksFor opt < 4294967296 := by
  have := u32_lt (opt.spaceSize / opt.blockSize)
  unfold blocksFor
  split_ifs <;> omega

/-- The contents of a segment stay in front of the tail guard page exactly when the space
that the option asks for has room for the bookkeeping next to the data buffers. -/
theorem contents_fit_iff (p : Platform) (opt : SegmentOption) (managed : Nat)
    (_sized : 1 ≤ opt.blockSize) (small : opt.spaceSize < 2 ^ 40) :
    (∀ r ∈ contents p opt managed,
        r.stop ≤ managed + ((construct p opt).initPreOpen.2.opt.spaceSize - 2 * p.pageSize)) ↔
      SegmentLayout.bookkeeping p.toAbi (blocksFor opt) +
        ExtentLayout.dataSpan (blocksFor opt) (u32 opt.blockSize) ≤ opt.spaceSize := by
  rw [contents, initPostCreate, initPreOpen_construct p small]
  simp only [Nat.add_sub_cancel]
  rw [SegmentLayout.initialized_stop_le_iff, u32_of_lt (blocksFor_lt opt)]

/-- The sizes on a 64-bit Linux. -/
def linux : Platform where
  segmentLayout := ⟨1184, 1184, by decide, by decide, by decide, by decide⟩
  extentLayout := ⟨824, 824, by decide, by decide, by decide, by decide⟩
  shmObject := 216
  block := 96
  shmObject_small := by decide
  block_small := by decide
  pageSize := 4096
  pageSize_small := by decide

/-- Ten blocks of a page in a megabyte. -/
theorem contents_fit_iff_tenBlocks :
    blocksFor ⟨0, 1048576, 10, 4096⟩ = 10 ∧
      ∀ r ∈ contents linux ⟨0, 1048576, 10, 4096⟩ 0x520000001000,
        r.stop ≤ 0x520000001000 +
          ((construct linux ⟨0, 1048576, 10, 4096⟩).initPreOpen.2.opt.spaceSize -
            2 * linux.pageSize) :=
  ⟨by decide, (contents_fit_iff linux ⟨0, 1048576, 10, 4096⟩ 0x520000001000 (by decide)
    (by decide)).mpr (by decide +kernel)⟩

/-- Space for exactly ten blocks: the blocks lie behind everything else and reach into the
tail guard page and beyond it. -/
theorem contents_overrun :
    ¬∀ r ∈ contents linux ⟨0, 40960, 0, 4096⟩ 0x520000001000,
      r.stop ≤ 0x520000001000 +
        ((construct linux ⟨0, 40960, 0, 4096⟩).initPreOpen.2.opt.spaceSize -
          2 * linux.pageSize) := by
  decide +kernel

end Segment

end Fuxi.Shm.Impl
