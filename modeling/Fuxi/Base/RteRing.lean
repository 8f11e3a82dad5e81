import Mathlib.Logic.Function.Basic
import Mathlib.Data.List.GetD
import Fuxi.Lib.Word

/-!
# The bounded ring `RteRing`

The ring keeps two pairs of 32-bit counters. A counter is kept here as a natural
number, and every place where the code reads it, compares it or subtracts it sees
`u32` of that number. The producer and the consumer functions differ only in the
counters they use, so both are instances of one definition over a `Side`.
`RingBuffer` is the same code at the element type `void*`.
-/

namespace Fuxi.Base

open Lib

/-- `struct ring_headtail`. -/
structure RingHeadtail where
  head : Nat := 0
  tail : Nat := 0
  deriving DecidableEq

/-- The two ends of a ring. -/
inductive Side
  | prod
  | cons
  deriving DecidableEq

namespace Side

/-- The end whose tail bounds the claims of this end. -/
def other : Side → Side
  | prod => cons
  | cons => prod

@[simp] theorem other_ne (s : Side) : s.other ≠ s := by cases s <;> decide
@[simp] theorem ne_other (s : Side) : s ≠ s.other := by cases s <;> decide
@[simp] theorem other_other (s : Side) : s.other.other = s := by cases s <;> rfl

end Side

/-- The object `RteRing<T>`; `storage` is the slot array. -/
structure RteRing (α : Type*) where
  size : Nat
  mask : Nat
  capacity : Nat
  isSp : Bool
  isSc : Bool
  prod : RingHeadtail
  cons : RingHeadtail
  storage : Nat → α

/-- `RingBuffer` repeats `RteRing` for pointers. -/
abbrev RingBuffer := RteRing Nat

namespace RteRing

variable {α : Type*}

/-- `AlignmentSize`. -/
def alignmentSize : Nat := 128

/-- `AlignedNum`. -/
def alignedNum (num : Nat) : Nat := bitCeil num

/-- `PlacementStorageSize` for elements of `elem` bytes. -/
def placementStorageSize (elem num : Nat) : Nat :=
  alignUp (alignedNum num * elem) alignmentSize

theorem dvd_placementStorageSize (elem num : Nat) : 128 ∣ placementStorageSize elem num :=
  dvd_alignUp ..

/-- Even an empty ring takes one line of storage. -/
theorem le_placementStorageSize {elem : Nat} (num : Nat) (pos : 0 < elem) :
    128 ≤ placementStorageSize elem num := by
  refine Nat.le_of_dvd ?_ (dvd_placementStorageSize elem num)
  exact (Nat.mul_pos (bitCeil_pos num) pos).trans_le (le_alignUp _ (by decide))

theorem placementStorageSize_lt {elem num : Nat} (small : elem ≤ 8) (h : num < 4294967296) :
    placementStorageSize elem num < 34359738368 + 128 := by
  have ceil : bitCeil num ≤ 2 ^ 32 := bitCeil_le (by omega)
  have := alignUp_lt (alignedNum num * elem) (show 0 < alignmentSize by decide)
  have : alignedNum num * elem ≤ 2 ^ 32 * 8 := Nat.mul_le_mul ceil small
  simp only [placementStorageSize, alignmentSize] at *
  omega

/-- A ring that has not been initialised. -/
def blank (zero : α) : RteRing α := ⟨0, 0, 0, true, true, {}, {}, fun _ => zero⟩

/-- `Init` on a ring that is not initialised; the storage is zeroed. -/
def init (zero : α) (objectNum : Nat) (isSp isSc : Bool) : RteRing α where
  size := u32 (alignedNum objectNum)
  capacity := u32 (alignedNum objectNum)
  mask := u32 (u32 (alignedNum objectNum) + 4294967295)
  isSp := isSp
  isSc := isSc
  prod := {}
  cons := {}
  storage := fun _ => zero

/-- The counters of one end. -/
def ht (r : RteRing α) : Side → RingHeadtail
  | .prod => r.prod
  | .cons => r.cons

def setHt (r : RteRing α) : Side → RingHeadtail → RteRing α
  | .prod, v => { r with prod := v }
  | .cons, v => { r with cons := v }

/-- Store the head of one end. -/
def setHead (r : RteRing α) (s : Side) (v : Nat) : RteRing α :=
  r.setHt s { r.ht s with head := v }

/-- Store the tail of one end. -/
def setTail (r : RteRing α) (s : Side) (v : Nat) : RteRing α :=
  r.setHt s { r.ht s with tail := v }

def setStorage (r : RteRing α) (f : Nat → α) : RteRing α := { r with storage := f }

section Fields

variable (r : RteRing α) (s t : Side) (v : Nat) (h : RingHeadtail) (f : Nat → α)

@[simp] theorem setHt_size : (r.setHt s h).size = r.size := by cases s <;> rfl
@[simp] theorem setHt_mask : (r.setHt s h).mask = r.mask := by cases s <;> rfl
@[simp] theorem setHt_capacity : (r.setHt s h).capacity = r.capacity := by cases s <;> rfl
@[simp] theorem setHt_storage : (r.setHt s h).storage = r.storage := by cases s <;> rfl
@[simp] theorem setHt_ht_self : (r.setHt s h).ht s = h := by cases s <;> rfl

@[simp] theorem setHead_size : (r.setHead s v).size = r.size := by simp [setHead]
@[simp] theorem setHead_mask : (r.setHead s v).mask = r.mask := by simp [setHead]
@[simp] theorem setHead_capacity : (r.setHead s v).capacity = r.capacity := by simp [setHead]
@[simp] theorem setHead_storage : (r.setHead s v).storage = r.storage := by simp [setHead]
@[simp] theorem setTail_size : (r.setTail s v).size = r.size := by simp [setTail]
@[simp] theorem setTail_mask : (r.setTail s v).mask = r.mask := by simp [setTail]
@[simp] theorem setTail_capacity : (r.setTail s v).capacity = r.capacity := by simp [setTail]
@[simp] theorem setTail_storage : (r.setTail s v).storage = r.storage := by simp [setTail]
@[simp] theorem setStorage_ht : (r.setStorage f).ht t = r.ht t := by cases t <;> rfl
@[simp] theorem setStorage_size : (r.setStorage f).size = r.size := rfl
@[simp] theorem setStorage_mask : (r.setStorage f).mask = r.mask := rfl
@[simp] theorem setStorage_capacity : (r.setStorage f).capacity = r.capacity := rfl
@[simp] theorem setStorage_storage : (r.setStorage f).storage = f := rfl

@[simp] theorem setHead_head_self : ((r.setHead s v).ht s).head = v := by simp [setHead]
@[simp] theorem setTail_tail_self : ((r.setTail s v).ht s).tail = v := by simp [setTail]

@[simp] theorem setHead_tail : ((r.setHead s v).ht t).tail = (r.ht t).tail := by
  cases s <;> cases t <;> rfl

@[simp] theorem setTail_head : ((r.setTail s v).ht t).head = (r.ht t).head := by
  cases s <;> cases t <;> rfl

theorem setHead_head : ((r.setHead s v).ht t).head = if t = s then v else (r.ht t).head := by
  cases s <;> cases t <;> rfl

theorem setTail_tail : ((r.setTail s v).ht t).tail = if t = s then v else (r.ht t).tail := by
  cases s <;> cases t <;> rfl

end Fields

/-- `free_entries` of `MoveProdHead` and `entries` of `MoveConsHead`, computed from the
head the caller has read and the tail of the other end. -/
def entries (r : RteRing α) (s : Side) (oldHead : Nat) : Nat :=
  match s with
  | .prod => sub32 (r.capacity + r.cons.tail) oldHead
  | .cons => sub32 r.prod.tail oldHead

/-! ## The copy loops -/

/-- The loop unrolled by four: `blocks` rounds from slot `idx` and table index `i`. -/
def copyBlocks : Nat → Nat → Nat → List (Nat × Nat)
  | 0, _, _ => []
  | blocks + 1, idx, i =>
    (idx, i) :: (idx + 1, i + 1) :: (idx + 2, i + 2) :: (idx + 3, i + 3) ::
      copyBlocks blocks (idx + 4) (i + 4)

/-- The plain loop over `n` consecutive slots. -/
def copyRun (n idx i : Nat) : List (Nat × Nat) :=
  (List.range n).map fun j => (idx + j, i + j)

/-- The pairs of slot and table index that `EnqueueValues` and `DequeueValues` visit,
in order, from the slot `idx`. -/
def copySlots (size idx n : Nat) : List (Nat × Nat) :=
  if u32 (idx + n) < size then
    copyBlocks (n / 4) idx 0 ++ copyRun (n % 4) (idx + n / 4 * 4) (n / 4 * 4)
  else
    copyRun (size - idx) idx 0 ++ copyRun (n - (size - idx)) 0 (size - idx)

theorem copyRun_append (m n idx i : Nat) :
    copyRun m idx i ++ copyRun n (idx + m) (i + m) = copyRun (m + n) idx i := by
  simp [copyRun, List.range_add, Function.comp_def, Nat.add_assoc]

theorem copyBlocks_eq (blocks idx i : Nat) :
    copyBlocks blocks idx i = copyRun (blocks * 4) idx i := by
  induction blocks generalizing idx i with
  | zero => rfl
  | succ b ih =>
    rw [copyBlocks, ih, Nat.succ_mul, Nat.add_comm (b * 4) 4, ← copyRun_append]
    rfl

/-- The visited slots are the `n` consecutive positions of the ring, in order. -/
theorem copySlots_eq {size idx n : Nat} (hidx : idx < size) (hn : n ≤ size)
    (hsize : size ≤ 2147483648) :
    copySlots size idx n = (List.range n).map fun i => ((idx + i) % size, i) := by
  have noWrap : u32 (idx + n) = idx + n := u32_of_lt (by omega)
  unfold copySlots
  rw [noWrap]
  split_ifs with h
  · have hdiv := Nat.div_add_mod' n 4
    have := copyRun_append (n / 4 * 4) (n % 4) idx 0
    rw [Nat.zero_add, hdiv] at this
    rw [copyBlocks_eq, this]
    apply List.map_congr_left
    intro i hi
    have hi := List.mem_range.mp hi
    rw [Nat.mod_eq_of_lt (by omega), Nat.zero_add]
  · have split : n = (size - idx) + (n - (size - idx)) := by omega
    conv_rhs => rw [split, List.range_add, List.map_append]
    congr 1
    · apply List.map_congr_left
      intro i hi
      have hi := List.mem_range.mp hi
      rw [Nat.mod_eq_of_lt (by omega), Nat.zero_add]
    · rw [List.map_map]
      apply List.map_congr_left
      intro i hi
      have hi := List.mem_range.mp hi
      have wrap : idx + (size - idx + i) = i + size := by omega
      rw [Function.comp_apply, wrap, Nat.add_mod_right, Nat.mod_eq_of_lt (by omega), Nat.zero_add]

/-- The copy loop of a call that has claimed `n` positions from `oldHead` on. -/
def schedule (r : RteRing α) (oldHead n : Nat) : List (Nat × Nat) :=
  copySlots r.size (u32 oldHead &&& r.mask) n

/-- One assignment of a copy loop: a producer stores `obj_table[i]`, a consumer loads it. -/
def copyOne (s : Side) (e : Nat × Nat) (storage table : Nat → α) : (Nat → α) × (Nat → α) :=
  match s with
  | .prod => (Function.update storage e.1 (table e.2), table)
  | .cons => (storage, Function.update table e.2 (storage e.1))

/-! ## The calls, executed alone -/

/-- `DoEnqueue` and `DoDequeue` when no other call runs: the compare-exchange of the
multi path compares the head with the value just read and succeeds, and the wait in
`UpdateTail` finds the tail it waits for. The result is the ring, `obj_table`, the
number of elements moved and `*free_space` (`*available`). -/
def deal (r : RteRing α) (s : Side) (table : Nat → α) (n : Nat) :
    RteRing α × (Nat → α) × Nat × Nat :=
  let oldHead := (r.ht s).head
  let entries := r.entries s oldHead
  if n > entries ∨ n = 0 then (r, table, 0, entries)
  else
    let copied := (r.schedule oldHead n).foldl (fun p e => copyOne s e p.1 p.2) (r.storage, table)
    let r' := ((r.setHead s (oldHead + n)).setStorage copied.1).setTail s (oldHead + n)
    (r', copied.2, n, entries - n)

/-- `DoEnqueue`. -/
def doEnqueue (r : RteRing α) (table : Nat → α) (n : Nat) := r.deal .prod table n

/-- `DoDequeue`. -/
def doDequeue (r : RteRing α) (table : Nat → α) (n : Nat) := r.deal .cons table n

/-! ## Rings as `Init` leaves them -/

/-- The sizes that `Init` computes: either no slot at all (a request above `2^31`,
whose rounded size is zero as a 32-bit word) or a power of two with its mask. -/
structure WellSized (r : RteRing α) : Prop where
  capacity_eq : r.capacity = r.size
  shape : r.size = 0 ∨ ∃ k, k ≤ 31 ∧ r.size = 2 ^ k ∧ r.mask = 2 ^ k - 1

theorem init_wellSized (zero : α) (objectNum : Nat) (isSp isSc : Bool) :
    (init zero objectNum isSp isSc).WellSized := by
  obtain ⟨k, hk⟩ := bitCeil_eq_two_pow objectNum
  refine ⟨rfl, ?_⟩
  by_cases h : k ≤ 31
  · have small : 2 ^ k ≤ 2 ^ 31 := Nat.pow_le_pow_right (by decide) h
    have pos := Nat.two_pow_pos k
    have hsize : u32 (alignedNum objectNum) = 2 ^ k := by
      rw [alignedNum, hk]; exact u32_of_lt (by omega)
    refine Or.inr ⟨k, h, hsize, ?_⟩
    simp only [init, hsize]
    unfold u32
    omega
  · left
    have dvd : 4294967296 ∣ 2 ^ k := Nat.pow_dvd_pow 2 (show 32 ≤ k by omega)
    simp only [init, alignedNum, hk, u32]
    exact Nat.mod_eq_zero_of_dvd dvd

/-- Up to `2^31` objects fit into the ring that is made for them. -/
theorem le_init_size {objectNum : Nat} (zero : α) (isSp isSc : Bool)
    (h : objectNum ≤ 2147483648) : objectNum ≤ (init zero objectNum isSp isSc).size := by
  have le : bitCeil objectNum ≤ 2 ^ 31 := bitCeil_le (k := 31) h
  simp only [init, alignedNum]
  rw [u32_of_lt (by omega)]
  exact le_bitCeil objectNum

namespace WellSized

variable {r : RteRing α}

theorem size_le (h : r.WellSized) : r.size ≤ 2147483648 := by
  obtain hz | ⟨k, hk, hs, -⟩ := h.shape
  · omega
  · have : 2 ^ k ≤ 2 ^ 31 := Nat.pow_le_pow_right (by decide) hk
    omega

theorem and_mask (h : r.WellSized) (pos : 0 < r.size) (x : Nat) :
    u32 x &&& r.mask = x % r.size := by
  obtain hz | ⟨k, hk, hs, hm⟩ := h.shape
  · omega
  · rw [hm, Nat.and_two_pow_sub_one_eq_mod, u32_mod_two_pow _ (by omega), hs]

/-- The copy loop of a claim visits the slots of its positions. -/
theorem schedule_eq (h : r.WellSized) (pos : 0 < r.size) (oldHead : Nat) {n : Nat}
    (hn : n ≤ r.size) :
    r.schedule oldHead n = (List.range n).map fun i => ((oldHead + i) % r.size, i) := by
  rw [schedule, h.and_mask pos, copySlots_eq (Nat.mod_lt _ pos) hn h.size_le]
  simp only [Nat.mod_add_mod]

end WellSized

end RteRing

end Fuxi.Base
