import Mathlib.Order.Bounds.Basic
import Fuxi.Base.ConcurrentVector

/-!
# Setting the block size

`DynamicMeta` is the meta data of a vector whose block size is chosen at run time. The size is
doubled in a `uint32_t` until it reaches the hint, so that it never gets there from `2 ^ 31` on:
the next doubling gives zero.
-/

namespace Fuxi.Base.ConcurrentVector

open Lib

/-- `DynamicMeta`. -/
structure DynamicMeta where
  blockMask : Nat
  blockMaskBits : Nat

namespace DynamicMeta

variable (m : DynamicMeta)

def blockSize : Nat := u32 (m.blockMask + 1)

/-- `block_index` returns a `uint32_t`. -/
def blockIndex (index : Nat) : Nat := u32 (index >>> m.blockMaskBits)

def blockOffset (index : Nat) : Nat := u32 (index &&& m.blockMask)

/-- The loop of `set_block_size`, with the local `block_size` and at most so many rounds. -/
def double (blockSizeHint : Nat) : Nat → Nat → DynamicMeta → Option (Nat × DynamicMeta)
  | 0, blockSize, m => if blockSize < blockSizeHint then none else some (blockSize, m)
  | rounds + 1, blockSize, m =>
    if blockSize < blockSizeHint then
      double blockSizeHint rounds (u32 (blockSize <<< 1))
        ⟨u32 (m.blockMask <<< 1) ||| 1, u32 (m.blockMaskBits + 1)⟩
    else some (blockSize, m)

/-- `set_block_size`: what it returns and the fields that it sets, if it ends within so many
rounds. -/
def setBlockSize (blockSizeHint rounds : Nat) : Option (Nat × DynamicMeta) :=
  double blockSizeHint rounds 1 ⟨0, 0⟩

/-! ## What the fields should be -/

/-- The block size is the hint rounded up to a power of two, and the other fields belong to it. -/
structure RoundsUp (blockSizeHint : Nat) (m : DynamicMeta) : Prop where
  least : IsLeast {size | size.isPowerOfTwo ∧ max 1 blockSizeHint ≤ size} m.blockSize
  mask : m.blockMask = m.blockSize - 1
  bits : 2 ^ m.blockMaskBits = m.blockSize

/-- An index is the one of its block and offset. -/
def Splits (m : DynamicMeta) (index : Nat) : Prop :=
  index = m.blockIndex index * m.blockSize + m.blockOffset index

end DynamicMeta

/-- The meta data of the other modules. -/
def Meta.dynamic (m : Meta) : DynamicMeta := ⟨m.blockMask, m.blockMaskBits⟩

namespace Meta

variable (m : Meta)

@[simp] theorem dynamic_blockSize : m.dynamic.blockSize = m.blockSize := by
  have pos := m.blockSize_pos
  have le := m.blockSize_le
  rw [DynamicMeta.blockSize, dynamic, blockMask, Nat.sub_add_cancel pos, u32_of_lt (by omega)]

/-- A `DynamicMeta` computes the same blocks and offsets. -/
theorem dynamic_blockIndex (index : Nat) :
    m.dynamic.blockIndex index = m.blockIndex index ∧
      m.dynamic.blockOffset index = m.blockOffset index := ⟨rfl, rfl⟩

theorem blockOffset_eq (index : Nat) : m.blockOffset index = index % m.blockSize := by
  have lt := Nat.mod_lt index m.blockSize_pos
  have le := m.blockSize_le
  rw [blockOffset, blockMask, blockSize, Nat.and_two_pow_sub_one_eq_mod, ← blockSize,
    u32_of_lt (by omega)]

/-- Splitting loses nothing exactly if the number of the block fits into its type. -/
theorem splits_iff (index : Nat) : m.dynamic.Splits index ↔ index / m.blockSize < 2 ^ 32 := by
  have whole := Nat.div_add_mod' index m.blockSize
  rw [DynamicMeta.Splits, (m.dynamic_blockIndex index).1, (m.dynamic_blockIndex index).2,
    m.dynamic_blockSize, m.blockIndex_eq, m.blockOffset_eq]
  constructor
  · intro splits
    have eq : u32 (index / m.blockSize) = index / m.blockSize :=
      Nat.eq_of_mul_eq_mul_right m.blockSize_pos (by omega)
    exact eq ▸ u32_lt _
  · intro fits
    rw [u32_of_lt fits, whole]

end Meta

namespace DynamicMeta

/-! ## The loop -/

/-- One round doubles the size. -/
theorem double_round {k : Nat} (few : k + 1 ≤ 31) :
    u32 (2 ^ k <<< 1) = 2 ^ (k + 1) ∧ u32 ((2 ^ k - 1) <<< 1) ||| 1 = 2 ^ (k + 1) - 1 ∧
      u32 (k + 1) = k + 1 := by
  have pos := Nat.two_pow_pos k
  have le : 2 ^ (k + 1) ≤ 2 ^ 31 := Nat.pow_le_pow_right (by decide) few
  rw [Nat.pow_succ] at le ⊢
  rw [Nat.shiftLeft_eq, Nat.shiftLeft_eq, Nat.pow_one, u32_of_lt (by omega), u32_of_lt (by omega),
    u32_of_lt (by omega)]
  have odd : 2 * (2 ^ k - 1) + 1 = 2 * (2 ^ k - 1) ||| 1 :=
    Nat.two_pow_add_eq_or_of_lt (i := 1) (b := 1) (by decide) (2 ^ k - 1)
  rw [Nat.mul_comm (2 ^ k - 1), ← odd]
  exact ⟨rfl, by omega, rfl⟩

/-- After as many rounds as it takes, the loop ends at the first size that is large enough. -/
theorem double_eq {blockSizeHint d k : Nat} (few : k + d ≤ 31)
    (small : ∀ i < d, 2 ^ (k + i) < blockSizeHint) (enough : blockSizeHint ≤ 2 ^ (k + d)) :
    double blockSizeHint d (2 ^ k) ⟨2 ^ k - 1, k⟩ =
      some (2 ^ (k + d), ⟨2 ^ (k + d) - 1, k + d⟩) := by
  induction d generalizing k with
  | zero => exact if_neg (not_lt.mpr enough)
  | succ d ih =>
    obtain ⟨size, mask, bits⟩ := double_round (k := k) (by omega)
    have first : 2 ^ k < blockSizeHint := small 0 (Nat.succ_pos d)
    rw [double, if_pos first, size, mask, bits]
    have next : k + (d + 1) = k + 1 + d := by omega
    rw [next] at few enough ⊢
    refine ih few (fun i lt => ?_) enough
    have := small (i + 1) (by omega)
    rwa [← Nat.add_assoc, Nat.add_right_comm] at this

/-- From a size that is zero, or for a hint that no `uint32_t` power of two reaches, the loop
does not end. -/
theorem double_none {blockSizeHint blockSize : Nat} (large : 2 ^ 31 < blockSizeHint)
    (size : blockSize = 0 ∨ ∃ k ≤ 31, blockSize = 2 ^ k) (rounds : Nat) (m : DynamicMeta) :
    double blockSizeHint rounds blockSize m = none := by
  have less : blockSize < blockSizeHint := by
    obtain rfl | ⟨k, few, rfl⟩ := size
    · omega
    · exact (Nat.pow_le_pow_right (by decide) few).trans_lt large
  induction rounds generalizing blockSize m with
  | zero => exact if_pos less
  | succ rounds ih =>
    rw [double, if_pos less]
    have next : u32 (blockSize <<< 1) = 0 ∨ ∃ k ≤ 31, u32 (blockSize <<< 1) = 2 ^ k := by
      obtain rfl | ⟨k, few, rfl⟩ := size
      · exact Or.inl rfl
      · obtain more | rfl := Nat.lt_or_eq_of_le few
        · exact Or.inr ⟨k + 1, more, (double_round more).1⟩
        · exact Or.inl rfl
    refine ih next _ ?_
    obtain zero | ⟨k, few, pow⟩ := next
    · omega
    · exact pow ▸ (Nat.pow_le_pow_right (by decide) few).trans_lt large

theorem setBlockSize_none {blockSizeHint : Nat} (large : 2 ^ 31 < blockSizeHint) (rounds : Nat) :
    setBlockSize blockSizeHint rounds = none :=
  double_none large (Or.inr ⟨0, Nat.zero_le _, rfl⟩) rounds ⟨0, 0⟩

/-- The hint rounded up to a power of two is the block size of some `Meta`. -/
theorem exists_meta {blockSizeHint : Nat} (fits : blockSizeHint ≤ 2 ^ 31) :
    ∃ m : Meta, m.blockSize = bitCeil blockSizeHint := by
  obtain ⟨k, pow⟩ := bitCeil_eq_two_pow blockSizeHint
  refine ⟨⟨k, ?_⟩, pow.symm⟩
  exact (Nat.pow_le_pow_iff_right (by decide)).mp (pow ▸ bitCeil_le fits)

theorem least_bitCeil (blockSizeHint : Nat) :
    IsLeast {size | size.isPowerOfTwo ∧ max 1 blockSizeHint ≤ size} (bitCeil blockSizeHint) := by
  refine ⟨⟨bitCeil_eq_two_pow _, max_le (bitCeil_pos _) (le_bitCeil _)⟩, ?_⟩
  rintro size ⟨⟨k, rfl⟩, le⟩
  exact bitCeil_le (le_of_max_le_right le)

/-- Up to `2 ^ 31` the loop ends with the meta data of the hint rounded up. -/
theorem setBlockSize_eq {blockSizeHint : Nat} {m : Meta}
    (size : m.blockSize = bitCeil blockSizeHint) :
    setBlockSize blockSizeHint m.blockMaskBits = some (m.blockSize, m.dynamic) := by
  have pow : 2 ^ m.blockMaskBits = bitCeil blockSizeHint := size
  have ends := @double_eq blockSizeHint m.blockMaskBits 0
  simp only [Nat.zero_add] at ends
  refine ends m.small (fun i lt => ?_) (pow ▸ le_bitCeil blockSizeHint)
  by_contra le
  have small := bitCeil_le (not_lt.mp le)
  rw [← pow] at small
  exact absurd lt (not_lt.mpr ((Nat.pow_le_pow_iff_right (by decide)).mp small))

theorem roundsUp_dynamic {blockSizeHint : Nat} {m : Meta}
    (size : m.blockSize = bitCeil blockSizeHint) : RoundsUp blockSizeHint m.dynamic where
  least := by
    rw [m.dynamic_blockSize, size]
    exact least_bitCeil blockSizeHint
  mask := by
    rw [m.dynamic_blockSize]
    rfl
  bits := m.dynamic_blockSize.symm

/-- Only the meta data of the hint rounded up will do. -/
theorem RoundsUp.eq {blockSizeHint : Nat} {d : DynamicMeta} (h : RoundsUp blockSizeHint d)
    {m : Meta} (size : m.blockSize = bitCeil blockSizeHint) : d = m.dynamic := by
  have same : d.blockSize = m.blockSize :=
    (h.least.unique (least_bitCeil blockSizeHint)).trans size.symm
  have bits : d.blockMaskBits = m.blockMaskBits :=
    Nat.pow_right_injective le_rfl (h.bits.trans same)
  have mask : d.blockMask = m.blockMask := by rw [h.mask, same, Meta.blockMask]
  cases d
  subst bits mask
  rfl

/-- The loop ends, the fields belong to the hint rounded up to a power of two, and an index is
split into its block and offset, exactly if the hint is at most `2 ^ 31` and the index lies in
one of the first `2 ^ 32` blocks. -/
theorem setBlockSize_roundsUp_iff (blockSizeHint index : Nat) :
    (∃ rounds d, setBlockSize blockSizeHint rounds = some (d.blockSize, d) ∧
      RoundsUp blockSizeHint d ∧ d.Splits index) ↔
        blockSizeHint ≤ 2 ^ 31 ∧ index / bitCeil blockSizeHint < 2 ^ 32 := by
  constructor
  · rintro ⟨rounds, d, ends, up, splits⟩
    have fits : blockSizeHint ≤ 2 ^ 31 := by
      by_contra large
      rw [setBlockSize_none (not_le.mp large)] at ends
      cases ends
    obtain ⟨m, size⟩ := exists_meta fits
    rw [up.eq size, m.splits_iff, size] at splits
    exact ⟨fits, splits⟩
  · rintro ⟨fits, few⟩
    obtain ⟨m, size⟩ := exists_meta fits
    refine ⟨m.blockMaskBits, m.dynamic, ?_, roundsUp_dynamic size, ?_⟩
    · rw [m.dynamic_blockSize]
      exact setBlockSize_eq size
    · rwa [m.splits_iff, size]

/-- The least hint for which the loop does not end; and with blocks of one element, the index
`2 ^ 32` is taken for the index `0`. -/
theorem setBlockSize_endless :
    (∀ rounds, setBlockSize 2147483649 rounds = none) ∧
      ∃ d, setBlockSize 1 0 = some (1, d) ∧ ¬d.Splits 4294967296 :=
  ⟨setBlockSize_none (by decide), ⟨0, 0⟩, rfl, by unfold Splits; decide⟩

end DynamicMeta

end Fuxi.Base.ConcurrentVector
