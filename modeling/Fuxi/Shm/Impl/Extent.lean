import Fuxi.Base.RteRing.Fifo
import Fuxi.Shm.Impl.Segment

/-!
# `Extent`

A process maps an extent and derives the addresses of its data buffers from the layout. The
layout keeps the number of blocks, the size of a buffer and the offsets as `uint32_t`, and
the ring keeps the indices of the free blocks as `uint16_t`.
-/

namespace Fuxi.Shm.Impl

open Lib Base

/-- `WritableBlock` with the addresses of the `Block` and of the buffer; there is no buffer
behind the end of `block_buf_addrs_`. -/
structure WritableBlock where
  extentIndex : Nat := 0
  blockIndex : Nat := 0
  block : Nat := 0
  buf : Option Nat := none

/-- An `Extent` that has been initialised: the layout, `block_table` and `block_buf_addrs_`. -/
structure Extent where
  layout : ExtentLayout
  blockTable : Nat
  blockBufAddrs : List Nat

namespace ExtentLayout

/-- `BlockTableAddr` of the layout at address `this`. -/
def blockTableAddr (abi : Abi) (this : Nat) (l : ExtentLayout) : Nat :=
  this + abi.extentLayout.data + l.blockOffset

/-- `BlockBufferBaseAddr`. -/
def blockBufferBaseAddr (abi : Abi) (this : Nat) (l : ExtentLayout) : Nat :=
  this + abi.extentLayout.data + l.blockBufferOffset

/-- `extent_index`, which nothing sets. -/
def extentIndex (_ : ExtentLayout) : Nat := 0

/-- `GetFreeBlockIndex`. -/
def getFreeBlockIndex (l : ExtentLayout) : ExtentLayout × Option Nat :=
  let taken := l.freeBlockIds.doDequeue (fun _ => 0) 1
  ({ l with freeBlockIds := taken.1 }, if taken.2.2.1 = 0 then none else some (taken.2.1 0))

end ExtentLayout

namespace Extent

/-- `Initialize` with the layout at address `this`; `i * BlockBufferSize()` is a `uint32_t`. -/
def initialized (abi : Abi) (this : Nat) (l : ExtentLayout) : Extent where
  layout := l
  blockTable := l.blockTableAddr abi this
  blockBufAddrs := (List.range l.blockNum).map fun i =>
    l.blockBufferBaseAddr abi this + u32 (i * l.blockBufferSize)

/-- `AcquireBlockToWrite`. -/
def acquireBlockToWrite (abi : Abi) (e : Extent) : Extent × Option WritableBlock :=
  let got := e.layout.getFreeBlockIndex
  ({ e with layout := got.1 }, got.2.map fun index =>
    { extentIndex := e.layout.extentIndex
      blockIndex := index
      block := e.blockTable + abi.block * index
      buf := e.blockBufAddrs[index]? })

/-- The blocks that `k` calls of `AcquireBlockToWrite` one after the other return. -/
def acquired (abi : Abi) : Nat → Extent → List WritableBlock
  | 0, _ => []
  | k + 1, e =>
    let got := e.acquireBlockToWrite abi
    got.2.toList ++ acquired abi k got.1

/-- The extent in a process that has mapped a new layout at the address where it was made. -/
def mapped (abi : Abi) (this : Nat) (opt : ExtentOption) : Extent :=
  initialized abi this (ExtentLayout.init abi this {} opt).2.1

/-- The data buffers as `AcquireBlockToWrite` hands them out. -/
def buffers (e : Extent) : List Region :=
  e.blockBufAddrs.map fun addr => ⟨addr, e.layout.blockBufferSize⟩

end Extent

/-! ## The new layout -/

namespace ExtentLayout

/-- What `Extent` reads in a new layout. -/
theorem init_layout (abi : Abi) (this : Nat) {opt : ExtentOption} (base : opt.baseAddr ≠ 0) :
    let l := (init abi this {} opt).2.1
    l.blockNum = u32 opt.blockNum ∧ l.blockBufferSize = u32 opt.blockSize ∧
      l.freeBlockIds = (Extent.freeBlockIds (u32 opt.blockNum)).1 ∧
      l.blockBufferOffset =
        u32 (freeBlockIdsSize (u32 opt.blockNum) + abi.block * u32 opt.blockNum) := by
  obtain ⟨ids, table, both⟩ := used_in_front abi (u32_lt opt.blockNum)
  simp only [init, allocate, Bool.false_eq_true, if_false, base, Nat.add_zero, Nat.zero_add,
    true_and, ids, table, both, Nat.add_sub_cancel_left]

/-! ## The data buffers -/

variable {base base' num size : Nat}

theorem blockBuffers_inj (pos : 0 < num) :
    blockBuffers base num size = blockBuffers base' num size ↔ base = base' := by
  refine ⟨fun eq => ?_, fun eq => eq ▸ rfl⟩
  have first := congrArg (fun l => l[0]?) eq
  simp only [blockBuffers, List.getElem?_map, List.getElem?_range pos, Option.map_some,
    Option.some.injEq, Region.mk.injEq] at first
  omega

/-- The offset of some buffer is the first one that wraps around, and that buffer overlaps with
the first buffer. -/
theorem exists_wrap (pos : 0 < size) (small : size < 4294967296)
    (wraps : 4294967296 ≤ (num - 1) * size) :
    ∃ i, 0 < i ∧ i < num ∧ u32 (i * size) < size := by
  have le := le_alignUp 4294967296 pos
  have lt := alignUp_lt 4294967296 pos
  have last := alignUp_le pos wraps (Nat.dvd_mul_left size _)
  rw [alignUp] at le lt last
  generalize (4294967296 + size - 1) / size = i at le lt last
  have before : i ≤ num - 1 := Nat.le_of_mul_le_mul_right last pos
  have first : 0 < i := by
    apply Nat.pos_of_ne_zero
    rintro rfl
    omega
  refine ⟨i, first, by omega, ?_⟩
  unfold u32
  omega

/-- The buffers do not overlap exactly if the offset of the last one does not wrap around. -/
theorem blockBuffers_apart_iff (small : size < 4294967296) :
    (blockBuffers base num size).Pairwise Region.Apart ↔ (num - 1) * size < 4294967296 := by
  rw [blockBuffers, List.pairwise_map, List.pairwise_iff_getElem]
  simp only [List.getElem_range, List.length_range]
  constructor
  · intro apart
    by_contra! wraps
    have pos : 0 < size := by
      apply Nat.pos_of_ne_zero
      rintro rfl
      omega
    obtain ⟨i, first, before, inside⟩ := exists_wrap pos small wraps
    have := (Region.apart_iff pos pos).mp (apart 0 i (first.trans before) before first)
    simp only [Region.stop, Nat.zero_mul, u32_of_lt (show 0 < 4294967296 by decide)] at this
    omega
  · intro fits i j hi hj lt
    have le : j * size ≤ (num - 1) * size := Nat.mul_le_mul_right size (by omega)
    have next : (i + 1) * size ≤ j * size := Nat.mul_le_mul_right size lt
    rw [Nat.succ_mul] at next
    apply Region.apart_of_le
    simp only [Region.stop]
    rw [u32_of_lt (by omega), u32_of_lt (by omega)]
    omega

end ExtentLayout

namespace Extent

/-- The buffers of a process do not overlap with each other, with the storage of the ring or
with the `Block` table, and they are the ones that `Init` has made. -/
structure BuffersApart (abi : Abi) (this : Nat) (opt : ExtentOption) : Prop where
  buffers : (mapped abi this opt).buffers.Pairwise Region.Apart
  others : ∀ b ∈ (mapped abi this opt).buffers,
    ∀ r ∈ (ExtentLayout.init abi this {} opt).2.2.take 2, b.Apart r
  made : (mapped abi this opt).buffers = (ExtentLayout.init abi this {} opt).2.2.drop 2

/-- Neither the offset of the last buffer nor the offset of the first one wraps around. -/
def OffsetsFit (abi : Abi) (num size : Nat) : Prop :=
  num = 0 ∨ (num - 1) * size < 4294967296 ∧
    ExtentLayout.freeBlockIdsSize num + abi.block * num < 4294967296

instance (abi : Abi) (num size : Nat) : Decidable (OffsetsFit abi num size) :=
  inferInstanceAs (Decidable (_ ∨ _))

variable {abi : Abi} {this : Nat} {opt : ExtentOption}

theorem mapped_buffers (abi : Abi) (this : Nat) (base : opt.baseAddr ≠ 0) :
    let num := u32 opt.blockNum
    (mapped abi this opt).buffers = ExtentLayout.blockBuffers (this + abi.extentLayout.data +
      u32 (ExtentLayout.freeBlockIdsSize num + abi.block * num)) num (u32 opt.blockSize) := by
  obtain ⟨num, size, -, offset⟩ := ExtentLayout.init_layout abi this base
  simp only [buffers, mapped, initialized, ExtentLayout.blockBufferBaseAddr, num, size, offset,
    ExtentLayout.blockBuffers, List.map_map, Function.comp_def]

/-- The data buffers do not overlap exactly if no offset in the extent wraps around. -/
theorem buffersApart_iff (base : opt.baseAddr ≠ 0) (num : opt.blockNum < 4294967296)
    (size : opt.blockSize < 4294967296) :
    BuffersApart abi this opt ↔ OffsetsFit abi opt.blockNum opt.blockSize := by
  have buffers := mapped_buffers abi this base
  have regions := ExtentLayout.init_regions abi this base
  simp only [u32_of_lt num, u32_of_lt size] at buffers regions
  constructor
  · rintro ⟨apart, -, made⟩
    rw [buffers] at apart made
    rw [regions, List.drop_succ_cons, List.drop_succ_cons, List.drop_zero] at made
    refine (Nat.eq_zero_or_pos opt.blockNum).imp_right fun pos => ⟨?_, ?_⟩
    · exact (ExtentLayout.blockBuffers_apart_iff size).mp apart
    · have same := (ExtentLayout.blockBuffers_inj pos).mp made
      have := u32_lt (ExtentLayout.freeBlockIdsSize opt.blockNum + abi.block * opt.blockNum)
      omega
  · rintro (none | ⟨last, first⟩)
    · have empty : (mapped abi this opt).buffers = [] := by
        rw [buffers, none]
        rfl
      refine ⟨by rw [empty]; exact List.Pairwise.nil, by simp [empty], ?_⟩
      rw [empty, regions, none]
      rfl
    · rw [u32_of_lt first, ← Nat.add_assoc] at buffers
      refine ⟨?_, fun b hb r hr => ?_, ?_⟩
      · rw [buffers]
        exact (ExtentLayout.blockBuffers_apart_iff size).mpr last
      · -- both lie in front of all buffers
        rw [buffers, ExtentLayout.blockBuffers, List.mem_map] at hb
        obtain ⟨i, -, rfl⟩ := hb
        apply Region.Apart.symm
        apply Region.apart_of_le
        rw [regions, List.take_succ_cons, List.take_succ_cons, List.take_zero] at hr
        simp only [List.mem_cons, List.not_mem_nil, or_false] at hr
        obtain rfl | rfl := hr <;> simp only [Region.stop] <;> omega
      · rw [buffers, regions]
        rfl

/-- Four blocks of a page each. -/
theorem buffersApart_iff_pages : BuffersApart Segment.linux.toAbi 4096 ⟨0, 4096, 0, 4, 4096⟩ :=
  (buffersApart_iff (by decide) (by decide) (by decide)).mpr (by decide)

/-- The third of three blocks of 2 GiB lies on the first one. -/
theorem buffers_overlap :
    (mapped Segment.linux.toAbi 4096 ⟨0, 4096, 0, 3, 2147483648⟩).blockBufAddrs =
        [5336, 2147488984, 5336] ∧
      ¬BuffersApart Segment.linux.toAbi 4096 ⟨0, 4096, 0, 3, 2147483648⟩ := by
  have shared : ¬(mapped Segment.linux.toAbi 4096 ⟨0, 4096, 0, 3, 2147483648⟩).buffers.Pairwise
      Region.Apart := by decide +kernel
  exact ⟨by decide +kernel, fun apart => shared apart.buffers⟩

/-! ## The free blocks -/

/-- The ring holds each index once and nothing else, and as many blocks as there are can be
acquired, each of them once. -/
structure AllFree (abi : Abi) (e : Extent) (num : Nat) : Prop where
  ids : e.layout.freeBlockIds.contents.Perm (List.range num)
  acquired : ∀ k, (e.acquired abi k).length = min k num
  inRange : ∀ k, ∀ b ∈ e.acquired abi k, b.blockIndex < num
  different : ∀ k, ((e.acquired abi k).map WritableBlock.blockIndex).Nodup

theorem length_freeBlockIds_lt (num : Nat) : (freeBlockIds num).2.length < 65536 := by
  rw [freeBlockIds, ((IdPool.stocked_init ..).fill _).2.2, List.length_take, List.length_range]
  exact (min_le_right _ _).trans_lt (Nat.mod_lt _ (by decide))

/-- Of a ring that has just been stocked the ids can be read off. -/
theorem contents_freeBlockIds (num : Nat) :
    (freeBlockIds num).1.contents = (freeBlockIds num).2 := by
  have stocked := freeBlockIds_stocked num
  have fits := stocked.fits
  obtain zero | pos := Nat.eq_zero_or_pos (freeBlockIds num).1.size
  · have none : (freeBlockIds num).2 = [] := List.length_eq_zero_iff.mp (by omega)
    rw [none, RteRing.contents, stocked.prod, stocked.cons, none]
    rfl
  · exact (stocked.holds pos).contents_eq

/-- The blocks come in the order of the ids in the ring. -/
theorem acquired_eq (abi : Abi) {e : Extent} {ids : List Nat}
    (h : e.layout.freeBlockIds.Holds ids) (k : Nat) :
    (e.acquired abi k).map WritableBlock.blockIndex = ids.take k := by
  induction k generalizing e ids with
  | zero => rfl
  | succ k ih =>
    cases ids with
    | nil =>
      have taken := h.doDequeue_none (fun _ => 0) (n := 1) (Or.inl (by simp))
      have none : e.acquireBlockToWrite abi = (e, none) := by
        simp [acquireBlockToWrite, ExtentLayout.getFreeBlockIndex, taken]
      simpa [acquired, none] using ih h
    | cons index ids =>
      obtain ⟨r, taken, -, rest⟩ := h.doDequeue_some (fun _ => 0) (n := 1) (by simp)
      have holds : (e.acquireBlockToWrite abi).1.layout.freeBlockIds.Holds ids := by
        simpa [acquireBlockToWrite, ExtentLayout.getFreeBlockIndex, taken] using rest
      have later := ih holds
      have some : (e.acquireBlockToWrite abi).2.map WritableBlock.blockIndex = some index := by
        simp [acquireBlockToWrite, ExtentLayout.getFreeBlockIndex, taken]
      obtain ⟨b, got, rfl⟩ := Option.map_eq_some_iff.mp some
      simp [acquired, got, later]

/-- An extent starts with all of its blocks free exactly if their number fits into a
`uint16_t`. -/
theorem allFree_iff (abi : Abi) (this : Nat) {opt : ExtentOption} (base : opt.baseAddr ≠ 0)
    (some : 1 ≤ opt.blockNum) (num : opt.blockNum < 4294967296) :
    (mapped abi this opt).AllFree abi opt.blockNum ↔ opt.blockNum < 65536 := by
  obtain ⟨-, -, ids, -⟩ := ExtentLayout.init_layout abi this base
  rw [u32_of_lt num] at ids
  have ids : (mapped abi this opt).layout.freeBlockIds = (freeBlockIds opt.blockNum).1 := ids
  constructor
  · intro free
    have perm := free.ids
    rw [ids, contents_freeBlockIds] at perm
    have := perm.length_eq
    rw [List.length_range] at this
    have := length_freeBlockIds_lt opt.blockNum
    omega
  · intro small
    have all := freeBlockIds_eq small
    have holds : (mapped abi this opt).layout.freeBlockIds.Holds (List.range opt.blockNum) := by
      rw [ids, ← all]
      apply (freeBlockIds_stocked opt.blockNum).holds
      have := (freeBlockIds_stocked opt.blockNum).fits
      rw [all, List.length_range] at this
      omega
    have acquired := acquired_eq abi holds
    refine ⟨?_, fun k => ?_, fun k b hb => ?_, fun k => ?_⟩
    · rw [ids, contents_freeBlockIds, all]
    · have := congrArg List.length (acquired k)
      simpa using this
    · have := List.mem_map_of_mem (f := WritableBlock.blockIndex) hb
      rw [acquired k] at this
      exact List.mem_range.mp (List.mem_of_mem_take this)
    · rw [acquired k]
      exact List.nodup_range.sublist (List.take_sublist ..)

/-- Four blocks. -/
theorem allFree_iff_four : (mapped Segment.linux.toAbi 4096 ⟨0, 4096, 0, 4, 4096⟩).AllFree
    Segment.linux.toAbi 4 :=
  have base : (⟨0, 4096, 0, 4, 4096⟩ : ExtentOption).baseAddr ≠ 0 := by decide
  (allFree_iff Segment.linux.toAbi 4096 base (by decide) (by decide)).mpr (by decide)

/-- Of `2^16` blocks none is free. -/
theorem noneFree :
    (mapped Segment.linux.toAbi 4096 ⟨0, 4096, 0, 65536, 8⟩).acquired Segment.linux.toAbi 1 =
        [] ∧
      ¬(mapped Segment.linux.toAbi 4096 ⟨0, 4096, 0, 65536, 8⟩).AllFree Segment.linux.toAbi
        65536 := by
  have none : ((mapped Segment.linux.toAbi 4096 ⟨0, 4096, 0, 65536, 8⟩).acquired
      Segment.linux.toAbi 1).length = 0 := by decide +kernel
  refine ⟨List.length_eq_zero_iff.mp none, fun free => ?_⟩
  have one := free.acquired 1
  rw [none] at one
  exact absurd one (by decide)

end Extent

end Fuxi.Shm.Impl
