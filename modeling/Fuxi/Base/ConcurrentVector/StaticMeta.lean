import Fuxi.Base.ConcurrentVector

/-!
# Block sizes known at compile time

A vector with a template argument takes its block size from there. The argument is a `size_t`,
while the block size, its mask and the number of its bits are 32-bit words, so that they do not
belong to the argument any more from `2 ^ 32` on.
-/

namespace Fuxi.Base.ConcurrentVector

open Lib

/-- `__builtin_popcount`, whose argument is an `unsigned int`. -/
def popcount (x : Nat) : Nat := (List.range 32).countP x.testBit

/-- `StaticMeta`, where the template argument is `2 ^ exponent`. -/
structure StaticMeta where
  exponent : Nat
  word : exponent < 64

namespace StaticMeta

variable (m : StaticMeta)

/-- The template argument `BLOCK_SIZE`. -/
def argument : Nat := 2 ^ m.exponent

def blockSize : Nat := u32 m.argument

def blockMask : Nat := u32 (m.argument - 1)

/-- `BLOCK_MASK_BITS`. -/
def blockMaskBits : Nat := popcount (m.argument - 1)

def blockIndex (index : Nat) : Nat := u32 (index >>> m.blockMaskBits)

def blockOffset (index : Nat) : Nat := u32 (index &&& (m.argument - 1))

end StaticMeta

/-- The base class of `Meta`: with the template argument zero the block size is set at run
time. -/
inductive BlockMeta
  | dynamic (m : Meta)
  | static (m : StaticMeta)

namespace BlockMeta

/-- A block is meant to have `2 ^ exponent` elements. -/
def exponent : BlockMeta → Nat
  | dynamic m => m.blockMaskBits
  | static m => m.exponent

def blockSize : BlockMeta → Nat
  | dynamic m => m.blockSize
  | static m => m.blockSize

def blockMask : BlockMeta → Nat
  | dynamic m => m.blockMask
  | static m => m.blockMask

def blockMaskBits : BlockMeta → Nat
  | dynamic m => m.blockMaskBits
  | static m => m.blockMaskBits

def blockIndex : BlockMeta → Nat → Nat
  | dynamic m, index => m.blockIndex index
  | static m, index => m.blockIndex index

def blockOffset : BlockMeta → Nat → Nat
  | dynamic m, index => m.blockOffset index
  | static m, index => m.blockOffset index

/-- The number of blocks that `reserved_snapshot` asks for. -/
def reservedBlocks (m : BlockMeta) (size : Nat) : Nat := m.blockIndex (u64 (size + m.blockMask))

end BlockMeta

/-! ## What the methods compute -/

/-- Only the low 32 bits are counted. -/
theorem popcount_two_pow_sub_one (k : Nat) : popcount (2 ^ k - 1) = min k 32 := by
  have count (n : Nat) : (List.range n).countP (2 ^ k - 1).testBit = min k n := by
    induction n with
    | zero => exact (Nat.min_zero k).symm
    | succ n ih =>
      rw [List.range_succ, List.countP_append, ih, List.countP_singleton,
        Nat.testBit_two_pow_sub_one]
      by_cases more : n < k
      · rw [decide_eq_true more, if_pos rfl]
        omega
      · rw [decide_eq_false more, if_neg nofun]
        omega
  exact count 32

namespace BlockMeta

variable (m : BlockMeta)

theorem blockMaskBits_eq : m.blockMaskBits = min m.exponent 32 := by
  cases m with
  | dynamic m => exact (min_eq_left (m.small.trans (by decide))).symm
  | static m => exact popcount_two_pow_sub_one m.exponent

theorem blockMaskBits_le : m.blockMaskBits ≤ 32 := m.blockMaskBits_eq ▸ min_le_right _ _

theorem blockIndex_eq (index : Nat) :
    m.blockIndex index = u32 (index / 2 ^ m.blockMaskBits) := by
  rw [← Nat.shiftRight_eq_div_pow]
  cases m <;> rfl

/-- An offset has at most 32 bits, also where a block is meant to have more elements. -/
theorem blockOffset_eq (index : Nat) : m.blockOffset index = index % 2 ^ m.blockMaskBits := by
  have masked : m.blockOffset index = u32 (index % 2 ^ m.exponent) := by
    rw [← Nat.and_two_pow_sub_one_eq_mod]
    cases m <;> rfl
  rw [masked, blockMaskBits_eq]
  obtain few | many := Nat.lt_or_ge m.exponent 32
  · have le : 2 ^ m.exponent ≤ 2 ^ 32 := Nat.pow_le_pow_right (by decide) few.le
    have := Nat.mod_lt index (Nat.two_pow_pos m.exponent)
    rw [min_eq_left few.le, u32_of_lt (by omega)]
  · rw [min_eq_right many]
    exact Nat.mod_mod_of_dvd index (Nat.pow_dvd_pow 2 many)

theorem blockSize_eq : m.blockSize = if m.exponent < 32 then 2 ^ m.exponent else 0 := by
  split_ifs with few
  · cases m with
    | dynamic m => rfl
    | static m => exact u32_of_lt (Nat.pow_lt_pow_right (n := 32) (by decide) few)
  · cases m with
    | dynamic m =>
      have := m.small
      simp only [exponent] at few
      omega
    | static m => exact Nat.mod_eq_zero_of_dvd (Nat.pow_dvd_pow 2 (not_lt.mp few))

end BlockMeta

end Fuxi.Base.ConcurrentVector
