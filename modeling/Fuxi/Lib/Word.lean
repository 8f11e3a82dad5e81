import Mathlib.Data.Nat.ModEq
import Mathlib.Data.Nat.Log
import Mathlib.Tactic.Ring
import Mathlib.Tactic.Linarith

/-!
# Fixed-width arithmetic on natural numbers

A machine word of width `w` is kept as a natural number; the program sees its
residue modulo `2 ^ w`. The lemmas say when a comparison of residues decides the
comparison of the numbers, and collect the rounding operations of allocators:
the next power of two and the next multiple of a power of two.
-/

namespace Fuxi.Lib

/-- The low 16 bits of a number. -/
def u16 (x : Nat) : Nat := x % 65536

/-- The low 32 bits of a number. -/
def u32 (x : Nat) : Nat := x % 4294967296

/-- The low 64 bits of a number. -/
def u64 (x : Nat) : Nat := x % 18446744073709551616

/-- Conversion to a signed 32-bit number. -/
def i32 (x : Int) : Int := (x + 2147483648) % 4294967296 - 2147483648

/-- Conversion to a signed 64-bit number. -/
def i64 (x : Int) : Int := (x + 9223372036854775808) % 18446744073709551616 - 9223372036854775808

/-- Unsigned 32-bit subtraction. -/
def sub32 (x y : Nat) : Nat := u32 (u32 x + (4294967296 - u32 y))

/-- Conversion of a signed number to an unsigned 64-bit number. -/
def sizeT (x : Int) : Nat := (x % 18446744073709551616).toNat

theorem u32_lt (x : Nat) : u32 x < 4294967296 := Nat.mod_lt _ (by decide)

theorem u32_of_lt {x : Nat} (h : x < 4294967296) : u32 x = x := Nat.mod_eq_of_lt h

theorem u64_of_lt {x : Nat} (h : x < 18446744073709551616) : u64 x = x := Nat.mod_eq_of_lt h

theorem i32_of_lt {x : Int} (lo : -2147483648 ≤ x) (hi : x < 2147483648) : i32 x = x := by
  unfold i32; omega

theorem i32_add (x y : Int) : i32 (i32 x + y) = i32 (x + y) := by unfold i32; omega

@[simp] theorem u32_u32 (x : Nat) : u32 (u32 x) = u32 x := Nat.mod_mod _ _

/-- Close numbers with equal residues are equal. -/
theorem eq_of_u32_eq {x y : Nat} (le : x ≤ y) (near : y < x + 4294967296)
    (h : u32 x = u32 y) : x = y := by
  unfold u32 at h; omega

/-- Subtracting residues gives the true distance of close numbers. -/
theorem sub32_eq {x y : Nat} (le : y ≤ x) (near : x < y + 4294967296) : sub32 x y = x - y := by
  unfold sub32 u32; omega

theorem u32_mod_two_pow (x : Nat) {k : Nat} (hk : k ≤ 32) : u32 x % 2 ^ k = x % 2 ^ k := by
  have hd : 2 ^ k ∣ 4294967296 := Nat.pow_dvd_pow 2 hk
  exact Nat.mod_mod_of_dvd x hd

/-- A divisor of `2 ^ 32` does not see that a summand wraps around. -/
theorem dvd_add_u32_iff {a : Nat} (h : a ∣ 4294967296) (x y : Nat) : a ∣ x + u32 y ↔ a ∣ x + y := by
  have split : x + y = x + u32 y + 4294967296 * (y / 4294967296) := by unfold u32; omega
  rw [split]
  exact (Nat.dvd_add_left (h.mul_right _)).symm

/-! ## Rounding up to a power of two -/

/-- `absl::bit_ceil`: the least power of two that is not below `n`. -/
def bitCeil (n : Nat) : Nat := if n ≤ 1 then 1 else 2 ^ (Nat.log2 (n - 1) + 1)

theorem bitCeil_eq_two_pow (n : Nat) : ∃ k, bitCeil n = 2 ^ k := by
  unfold bitCeil
  split_ifs
  · exact ⟨0, rfl⟩
  · exact ⟨_, rfl⟩

theorem bitCeil_pos (n : Nat) : 0 < bitCeil n := by
  obtain ⟨k, hk⟩ := bitCeil_eq_two_pow n
  rw [hk]; exact Nat.two_pow_pos k

theorem le_bitCeil (n : Nat) : n ≤ bitCeil n := by
  unfold bitCeil
  split_ifs with h
  · exact h
  · have := Nat.lt_log2_self (n := n - 1)
    omega

/-- No smaller power of two is enough. -/
theorem bitCeil_le {n k : Nat} (h : n ≤ 2 ^ k) : bitCeil n ≤ 2 ^ k := by
  unfold bitCeil
  split_ifs with h1
  · exact Nat.two_pow_pos k
  · have hlog : Nat.log2 (n - 1) < k := (Nat.log2_lt (by omega)).mpr (by omega)
    exact Nat.pow_le_pow_right (by decide) hlog

/-! ## Rounding up to a multiple -/

/-- `(x + a - 1) & -a` for a power of two `a`: the least multiple of `a` not below `x`. -/
def alignUp (x a : Nat) : Nat := (x + a - 1) / a * a

theorem le_alignUp (x : Nat) {a : Nat} (ha : 0 < a) : x ≤ alignUp x a := by
  unfold alignUp
  have := Nat.div_add_mod (x + a - 1) a
  have := Nat.mod_lt (x + a - 1) ha
  have : a * ((x + a - 1) / a) = (x + a - 1) / a * a := Nat.mul_comm _ _
  omega

theorem alignUp_lt (x : Nat) {a : Nat} (ha : 0 < a) : alignUp x a < x + a := by
  unfold alignUp
  have := Nat.div_mul_le_self (x + a - 1) a
  omega

theorem dvd_alignUp (x a : Nat) : a ∣ alignUp x a := Nat.dvd_mul_left _ _

theorem alignUp_le {x y a : Nat} (ha : 0 < a) (h : x ≤ y) (hd : a ∣ y) : alignUp x a ≤ y := by
  obtain ⟨q, rfl⟩ := hd
  unfold alignUp
  have : (x + a - 1) / a ≤ q := by
    apply Nat.le_of_lt_succ
    rw [Nat.div_lt_iff_lt_mul ha]
    nlinarith [Nat.mul_comm a q, Nat.sub_add_cancel (show 1 ≤ x + a by omega)]
  calc (x + a - 1) / a * a ≤ q * a := Nat.mul_le_mul_right a this
    _ = a * q := Nat.mul_comm _ _

theorem alignUp_of_dvd {x a : Nat} (ha : 0 < a) (h : a ∣ x) : alignUp x a = x :=
  Nat.le_antisymm (alignUp_le ha le_rfl h) (le_alignUp x ha)

/-- `(x + a - 1) & static_cast<size_t>(-a)` on 64-bit words. -/
def alignMask (x a : Nat) : Nat := u64 (x + a - 1) &&& u64 (18446744073709551616 - a)

theorem and_high_mask {x k : Nat} (hx : x < 2 ^ 64) (hk : k < 64) :
    x &&& (2 ^ 64 - 2 ^ k) = x / 2 ^ k * 2 ^ k := by
  have split : 2 ^ 64 - 2 ^ k = (2 ^ (64 - k) - 1) * 2 ^ k := by
    rw [Nat.sub_mul, ← Nat.pow_add, Nat.one_mul]
    congr 2
    omega
  rw [split]
  apply Nat.eq_of_testBit_eq
  intro i
  rw [Nat.testBit_and, Nat.testBit_mul_two_pow, Nat.testBit_mul_two_pow, Nat.testBit_div_two_pow,
    Nat.testBit_two_pow_sub_one]
  by_cases hki : k ≤ i
  · by_cases h64 : i < 64
    · simp [hki, show i - k < 64 - k by omega]
    · have : x.testBit i = false :=
        Nat.testBit_lt_two_pow (hx.trans_le (Nat.pow_le_pow_right (by decide) (by omega)))
      simp [hki, this]
  · simp [hki]

/-- Without wrap-around the mask rounds up. -/
theorem alignMask_eq {x k : Nat} (hk : k < 64) (h : x + 2 ^ k ≤ 2 ^ 64) :
    alignMask x (2 ^ k) = alignUp x (2 ^ k) := by
  have pos := Nat.two_pow_pos k
  have h1 : u64 (x + 2 ^ k - 1) = x + 2 ^ k - 1 := Nat.mod_eq_of_lt (by omega)
  have h2 : u64 (18446744073709551616 - 2 ^ k) = 2 ^ 64 - 2 ^ k := Nat.mod_eq_of_lt (by omega)
  rw [alignMask, h1, h2, and_high_mask (by omega) hk, alignUp]

/-- With or without wrap-around the mask of a power of two yields a multiple of it. -/
theorem dvd_alignMask {a : Nat} (x : Nat) (ha : a.isPowerOfTwo)
    (small : a < 18446744073709551616) : a ∣ alignMask x a := by
  obtain ⟨k, rfl⟩ := ha
  have hk : k < 64 := (Nat.pow_lt_pow_iff_right (show 1 < 2 by decide)).mp small
  have pos := Nat.two_pow_pos k
  have mask : u64 (18446744073709551616 - 2 ^ k) = 2 ^ 64 - 2 ^ k := Nat.mod_eq_of_lt (by omega)
  have word : u64 (x + 2 ^ k - 1) < 2 ^ 64 := Nat.mod_lt _ (by decide)
  rw [alignMask, mask, and_high_mask word hk]
  exact Nat.dvd_mul_left _ _

/-! ## Powers of two -/

/-- Of two powers of two the smaller one divides the larger one. -/
theorem dvd_of_isPowerOfTwo {a b : Nat} (ha : a.isPowerOfTwo) (hb : b.isPowerOfTwo)
    (h : a ≤ b) : a ∣ b := by
  obtain ⟨j, rfl⟩ := ha
  obtain ⟨k, rfl⟩ := hb
  exact Nat.pow_dvd_pow 2 ((Nat.pow_le_pow_iff_right (by decide)).mp h)

theorem max_isPowerOfTwo {a b : Nat} (ha : a.isPowerOfTwo) (hb : b.isPowerOfTwo) :
    (max a b).isPowerOfTwo := by
  obtain h | h := Nat.le_total a b
  · rwa [Nat.max_eq_right h]
  · rwa [Nat.max_eq_left h]

/-- A power of two below the next one is at most this one. -/
theorem le_of_isPowerOfTwo {a k : Nat} (ha : a.isPowerOfTwo) (h : a < 2 ^ (k + 1)) :
    a ≤ 2 ^ k := by
  obtain ⟨j, rfl⟩ := ha
  have := (Nat.pow_lt_pow_iff_right (show 1 < 2 by decide)).mp h
  exact Nat.pow_le_pow_right (by decide) (by omega)

/-- Without wrap-around the mask of a power of two rounds up. -/
theorem alignMask_of_isPowerOfTwo {x a : Nat} (ha : a.isPowerOfTwo)
    (h : x + a ≤ 18446744073709551616) (small : a < 18446744073709551616) :
    alignMask x a = alignUp x a := by
  obtain ⟨k, rfl⟩ := ha
  have small : 2 ^ k < 2 ^ 64 := small
  exact alignMask_eq ((Nat.pow_lt_pow_iff_right (by decide)).mp small) h

/-- A power of two divides the number of words. -/
theorem dvd_word {a : Nat} (ha : a.isPowerOfTwo) (small : a < 18446744073709551616) :
    a ∣ 18446744073709551616 := dvd_of_isPowerOfTwo ha ⟨64, rfl⟩ small.le

/-- With wrap-around the mask of a power of two yields zero. -/
theorem alignMask_of_wrap {x a : Nat} (ha : a.isPowerOfTwo) (hx : x < 18446744073709551616)
    (small : a < 18446744073709551616) (wraps : 18446744073709551616 < x + a) :
    alignMask x a = 0 := by
  refine Nat.eq_zero_of_dvd_of_lt (dvd_alignMask x ha small) ?_
  calc alignMask x a ≤ u64 (x + a - 1) := Nat.and_le_left
    _ = x + a - 1 - 18446744073709551616 := by unfold u64; omega
    _ < a := by omega

/-- What the mask of a power of two would yield with wrap-around is not a word. -/
theorem le_alignUp_of_wrap {x a : Nat} (ha : a.isPowerOfTwo) (small : a < 18446744073709551616)
    (wraps : 18446744073709551616 < x + a) : 18446744073709551616 ≤ alignUp x a := by
  have le := le_alignUp x (Nat.pos_of_isPowerOfTwo ha)
  by_contra lt
  have gap : a ∣ 18446744073709551616 - alignUp x a :=
    Nat.dvd_sub (dvd_word ha small) (dvd_alignUp x a)
  have := Nat.le_of_dvd (by omega) gap
  omega

end Fuxi.Lib
