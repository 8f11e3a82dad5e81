import Fuxi.Shm.Impl.ExtentMetadata
import Fuxi.Lib.Region

/-!
# `ExtentLayout`

An extent starts with a layout, and `Init` places the storage of the ring of free blocks,
the `Block` table and the data buffers behind it. `Allocate` counts the bytes that have
been handed out and checks nothing.
-/

namespace Fuxi.Shm.Impl

open Lib Base

/-- A type that ends in `uint8_t data[0]`: its `sizeof` and the offset of `data`. What
follows `data` is padding, below the largest alignment in the program. -/
structure Header where
  size : Nat
  data : Nat
  data_pos : 0 < data
  data_le : data ≤ size
  size_lt : size < data + 128
  size_small : size < 65536

/-- What the compiler decides about the types in a segment. -/
structure Abi where
  segmentLayout : Header
  extentLayout : Header
  shmObject : Nat
  block : Nat
  shmObject_small : shmObject < 65536
  block_small : block < 65536

structure ExtentOption where
  offset : Nat := 0
  baseAddr : Nat := 0
  size : Nat := 0
  blockNum : Nat := 0
  blockSize : Nat := 0

structure ExtentLayout where
  magicHeader : Nat := 0
  segmentOffset : Nat := 0
  spaceSize : Nat := 0
  spaceUsed : Nat := 0
  blockNum : Nat := 0
  blockBufferSize : Nat := 0
  inited : Bool := false
  freeBlockIds : RteRing Nat := RteRing.blank 0
  blockOffset : Nat := 0
  blockBufferOffset : Nat := 0

namespace ExtentLayout

/-- `ShmMeta::EXTENT_MAGIC_HEADER`. -/
def extentMagicHeader : Nat := 0x2F2F2F2F2F2F2F2F

/-- The storage of the ring of `uint16_t` indices. -/
def freeBlockIdsSize (blockNum : Nat) : Nat := RteRing.placementStorageSize 2 blockNum

/-- `GetRequestSize`. -/
def getRequestSize (abi : Abi) (blockNum blockSize : Nat) : Nat :=
  u64 (abi.extentLayout.size + u64 (blockNum * blockSize) + freeBlockIdsSize blockNum)

/-- `Allocate` of the layout at address `this`: the pointer and the layout after that. -/
def allocate (abi : Abi) (this : Nat) (l : ExtentLayout) (size : Nat) : Nat × ExtentLayout :=
  (this + abi.extentLayout.data + l.spaceUsed, { l with spaceUsed := u64 (l.spaceUsed + size) })

/-- The loop that constructs the data buffers; `i * block_buffer_size` is a `uint32_t`. -/
def blockBuffers (base blockNum blockBufferSize : Nat) : List Region :=
  (List.range blockNum).map fun i => ⟨base + u32 (i * blockBufferSize), blockBufferSize⟩

/-- `Init` of the layout at address `this`, with the regions in which it constructs the ring
storage, the `Block` table and the data buffers. -/
def init (abi : Abi) (this : Nat) (l : ExtentLayout) (opt : ExtentOption) :
    Bool × ExtentLayout × List Region :=
  if l.inited then (true, l, [])
  else if opt.baseAddr = 0 then (false, l, [])
  else
    let num := u32 opt.blockNum
    let size := u32 opt.blockSize
    let filled := { l with
      magicHeader := extentMagicHeader
      segmentOffset := opt.offset
      spaceSize := opt.size
      blockNum := num
      blockBufferSize := size }
    let ids := filled.allocate abi this (freeBlockIdsSize num)
    let blocks := ids.2.allocate abi this (u64 (abi.block * num))
    -- the product of two `uint32_t` is a `uint32_t`
    let buffers := blocks.2.allocate abi this (u32 (size * num))
    let data := this + abi.extentLayout.data
    (true,
      { buffers.2 with
        freeBlockIds := (Extent.freeBlockIds num).1
        blockOffset := u32 (blocks.1 - data)
        blockBufferOffset := u32 (buffers.1 - data)
        inited := true },
      ⟨ids.1, freeBlockIdsSize num⟩ :: ⟨blocks.1, abi.block * num⟩ ::
        blockBuffers buffers.1 num size)

/-- No sum wraps around in front of the data buffers. -/
theorem used_in_front (abi : Abi) {num : Nat} (small : num < 4294967296) :
    u64 (freeBlockIdsSize num) = freeBlockIdsSize num ∧ u64 (abi.block * num) = abi.block * num ∧
      u64 (freeBlockIdsSize num + abi.block * num) = freeBlockIdsSize num + abi.block * num := by
  have ids : freeBlockIdsSize num < 34359738368 + 128 :=
    RteRing.placementStorageSize_lt (by decide) small
  have table : abi.block * num ≤ 65536 * 4294967296 :=
    Nat.mul_le_mul abi.block_small.le small.le
  exact ⟨u64_of_lt (by omega), u64_of_lt (by omega), u64_of_lt (by omega)⟩

/-- Where a new layout puts its parts. -/
theorem init_regions (abi : Abi) (this : Nat) {opt : ExtentOption} (base : opt.baseAddr ≠ 0) :
    (init abi this {} opt).2.2 =
      let num := u32 opt.blockNum
      let data := this + abi.extentLayout.data
      ⟨data, freeBlockIdsSize num⟩ :: ⟨data + freeBlockIdsSize num, abi.block * num⟩ ::
        blockBuffers (data + freeBlockIdsSize num + abi.block * num) num (u32 opt.blockSize) := by
  obtain ⟨ids, table, both⟩ := used_in_front abi (u32_lt opt.blockNum)
  simp only [init, allocate, Bool.false_eq_true, if_false, base, Nat.add_zero, Nat.zero_add, ids,
    table, both, Nat.add_assoc]

/-! ## Where the data ends -/

/-- How far the data buffers reach from their base. -/
def dataSpan : (blockNum blockBufferSize : Nat) → Nat
  | 0, _ => 0
  | n + 1, size => max (dataSpan n size) (u32 (n * size) + size)

theorem dataSpan_le_iff {num size bound : Nat} :
    dataSpan num size ≤ bound ↔ ∀ i < num, u32 (i * size) + size ≤ bound := by
  induction num with
  | zero => simp [dataSpan]
  | succ n ih =>
    rw [dataSpan, max_le_iff, ih]
    constructor
    · rintro ⟨before, last⟩ i hi
      obtain hi | rfl := Nat.lt_succ_iff_lt_or_eq.mp hi
      · exact before i hi
      · exact last
    · exact fun h => ⟨fun i hi => h i (Nat.lt_succ_of_lt hi), h n (Nat.lt_succ_self n)⟩

theorem blockBuffers_stop_le_iff {base num size bound : Nat} (fits : base ≤ bound) :
    (∀ r ∈ blockBuffers base num size, r.stop ≤ bound) ↔ base + dataSpan num size ≤ bound := by
  have shift : base + dataSpan num size ≤ bound ↔ dataSpan num size ≤ bound - base := by omega
  rw [shift, dataSpan_le_iff, blockBuffers, List.forall_mem_map]
  refine ⟨fun h i hi => ?_, fun h i hi => ?_⟩
  · have := h i (List.mem_range.mpr hi)
    simp only [Region.stop] at this
    omega
  · have := h i (List.mem_range.mp hi)
    simp only [Region.stop]
    omega

end ExtentLayout

end Fuxi.Shm.Impl
