import Fuxi.Shm.Impl.Segment

/-!
# The size requested for an extent

`GetRequestSize` adds up the layout, the data buffers and the storage of the ring. `Init` also
places the `Block` table, for which nothing is requested but the padding of the layout.
-/

namespace Fuxi.Shm.Impl.ExtentLayout

open Lib Base

/-- The end of what a new layout uses, from the start of the layout. -/
def used (abi : Abi) (this : Nat) (opt : ExtentOption) : Nat :=
  abi.extentLayout.data + (init abi this {} opt).2.1.spaceUsed

/-- The `Block` table fits into the padding of the layout. A `block_num` that does not fit into
its field, which takes an empty `block_size`, requests space for more indices than are used. -/
def TableFits (abi : Abi) (num : Nat) : Prop :=
  (num < 4294967296 → abi.extentLayout.data + abi.block * num ≤ abi.extentLayout.size) ∧
  (4294967296 ≤ num → abi.extentLayout.data + freeBlockIdsSize (u32 num) + abi.block * u32 num ≤
    u64 (abi.extentLayout.size + freeBlockIdsSize num))

instance (abi : Abi) (num : Nat) : Decidable (TableFits abi num) :=
  inferInstanceAs (Decidable ((_ → _) ∧ (_ → _)))

theorem used_eq (abi : Abi) (this : Nat) {opt : ExtentOption} (base : opt.baseAddr ≠ 0) :
    let num := u32 opt.blockNum
    used abi this opt = abi.extentLayout.data + freeBlockIdsSize num + abi.block * num +
      u32 (u32 opt.blockSize * num) := by
  have num := u32_lt opt.blockNum
  have ids : freeBlockIdsSize (u32 opt.blockNum) < 34359738368 + 128 :=
    RteRing.placementStorageSize_lt (by decide) num
  have table : abi.block * u32 opt.blockNum ≤ 65536 * 4294967296 :=
    Nat.mul_le_mul abi.block_small.le num.le
  have buffers := u32_lt (u32 opt.blockSize * u32 opt.blockNum)
  simp only [used, init, allocate, Bool.false_eq_true, if_false, base, Nat.zero_add]
  rw [u64_of_lt (x := abi.block * _) (by omega), u64_of_lt (x := freeBlockIdsSize _) (by omega),
    u64_of_lt (x := freeBlockIdsSize _ + _) (by omega), u64_of_lt (by omega)]
  omega

/-- The requested size covers what the layout uses exactly if the `Block` table fits. -/
theorem used_le_getRequestSize_iff (abi : Abi) (this : Nat) {opt : ExtentOption}
    (base : opt.baseAddr ≠ 0) (some : 1 ≤ opt.blockNum)
    (small : opt.blockNum * opt.blockSize < 4294967296) :
    used abi this opt ≤ getRequestSize abi opt.blockNum opt.blockSize ↔
      TableFits abi opt.blockNum := by
  have size : opt.blockSize ≤ opt.blockNum * opt.blockSize := Nat.le_mul_of_pos_left _ some
  have padding := abi.extentLayout.size_small
  rw [used_eq abi this base, getRequestSize, TableFits,
    u64_of_lt (x := opt.blockNum * opt.blockSize) (by omega), u32_of_lt (x := opt.blockSize) (by omega)]
  by_cases fits : opt.blockNum < 4294967296
  · have ids : freeBlockIdsSize opt.blockNum < 34359738368 + 128 :=
      RteRing.placementStorageSize_lt (by decide) fits
    have product := Nat.mul_comm opt.blockNum opt.blockSize
    simp only [u32_of_lt fits, ← product, u32_of_lt small, fits, not_le.mpr fits, forall_true_left,
      false_implies, and_true]
    rw [u64_of_lt (by omega)]
    omega
  · -- so many blocks have an empty size
    have empty : opt.blockSize = 0 := by
      by_contra! pos
      have := Nat.le_mul_of_pos_right opt.blockNum (Nat.pos_of_ne_zero pos)
      omega
    simp [empty, fits, not_lt.mp fits, u32]

/-- An ABI whose layout has room for two blocks in its padding. -/
def padded : Abi where
  segmentLayout := ⟨64, 64, by decide, by decide, by decide, by decide⟩
  -- 96 is also the size of a `Block` on Linux
  extentLayout := ⟨96, 80, by decide, by decide, by decide, Segment.linux.block_small⟩
  shmObject := 8
  block := 8
  shmObject_small := by decide
  block_small := by decide

/-- Two blocks fit there. -/
theorem used_le_getRequestSize_iff_two :
    used padded 4096 ⟨0, 4096, 0, 2, 4096⟩ ≤ getRequestSize padded 2 4096 :=
  have base : (⟨0, 4096, 0, 2, 4096⟩ : ExtentOption).baseAddr ≠ 0 := by decide
  (used_le_getRequestSize_iff padded 4096 base (by decide) (by decide)).mpr (by decide)

/-- The only block of an extent ends behind the requested size. -/
theorem getRequestSize_lt_used : getRequestSize Segment.linux.toAbi 1 4096 = 5048 ∧
    used Segment.linux.toAbi 4096 ⟨0, 4096, 0, 1, 4096⟩ = 5144 ∧
    ¬used Segment.linux.toAbi 4096 ⟨0, 4096, 0, 1, 4096⟩ ≤
      getRequestSize Segment.linux.toAbi 1 4096 := by
  decide +kernel

end Fuxi.Shm.Impl.ExtentLayout
