import Mathlib.Data.Nat.Log
import Fuxi.Base.ThreadLocal
import Fuxi.Lib.Machine

/-!
# `ConcurrentSampler`

A sampler keeps a sample of the recorded values in buckets, one for each range of values and each
thread. A bucket is filled first, and then a value replaces a random one or is dropped. A reset
only counts up the version of the sampler; a thread that finds a new version empties its mask,
and a bucket that is not in the mask is prepared when it is used, with the capacity that was set
in the meantime.
-/

namespace Fuxi.Base.ConcurrentSampler

open Lib

variable {Tid : Type*}

/-- What `FUXI_CACHELINE_SIZE` depends on. -/
inductive Arch
  | x86_64
  | other

/-- `FUXI_CACHELINE_SIZE`. -/
def Arch.cachelineSize : Arch → Nat
  | .x86_64 => 128
  | .other => 64

/-- `__builtin_clz` of a word that is not zero. -/
def clz (x : Nat) : Nat := 31 - Nat.log2 x

def bucketIndex (value : Nat) : Nat :=
  let value := value &&& 0x7FFFFFFF
  let value := value >>> 1
  if value = 0 then 0 else 32 - clz value

/-- `SampleBucket`. The data follow in memory, and `allocation` is the size that was requested
from `operator new`. -/
structure SampleBucket where
  allocateSize : Nat
  capacity : Nat
  recordNum : Nat
  data : Nat → Nat
  allocation : Nat

/-- `Sample`. `recorded` lists the values that were recorded in each bucket since the mask was
emptied. -/
structure Sample where
  version : Nat
  nonEmptyBucketMask : Nat
  buckets : Nat → Option SampleBucket
  recorded : Nat → List Nat

/-- `sizeof(SampleBucket)`. -/
def sizeofSampleBucket : Nat := 8

/-- The size that `prepare_sample_bucket` allocates. -/
def allocateSize (A : Arch) (capacity : Nat) : Nat :=
  alignMask (u64 (sizeofSampleBucket + 4 * capacity)) A.cachelineSize

namespace SampleBucket

/-- A bucket in new memory, which holds anything. -/
def new (A : Arch) (capacity : Nat) (memory : Nat → Nat) : SampleBucket where
  allocateSize := u16 (ConcurrentSampler.allocateSize A capacity)
  capacity := u16 capacity
  recordNum := 0
  data := memory
  allocation := ConcurrentSampler.allocateSize A capacity

/-- The first use of a bucket in a period. -/
def adjust (A : Arch) (capacity : Nat) (memory : Nat → Nat) : Option SampleBucket → SampleBucket
  | none => new A capacity memory
  | some b =>
    if b.capacity ≠ capacity then
      if ConcurrentSampler.allocateSize A capacity ≠ b.allocateSize then new A capacity memory
      else { b with capacity := u16 capacity, recordNum := 0 }
    else { b with recordNum := 0 }

/-- The modulus `record_num + 1`. -/
def modulus (b : SampleBucket) : Nat := u32 (b.recordNum + 1)

/-- The index in `data` where `operator<<` stores a value, if it does. -/
def place (b : SampleBucket) (random : Nat) : Option Nat :=
  if b.recordNum < b.capacity then some b.recordNum
  else
    let index := random % b.modulus
    if index < b.capacity then some index else none

/-- `operator<<` for the bucket of the value. A remainder modulo zero has no result. -/
def record (b : SampleBucket) (random value : Nat) : Option SampleBucket :=
  if b.capacity ≤ b.recordNum ∧ b.modulus = 0 then none
  else
    some { b with
      recordNum := u32 (b.recordNum + 1)
      data := match b.place random with
        | some index => Function.update b.data index value
        | none => b.data }

end SampleBucket

namespace Sample

/-- A thread looks whether a new version has begun. -/
def refresh (version : Nat) (s : Sample) : Sample :=
  if s.version ≠ version then
    { s with version, nonEmptyBucketMask := 0, recorded := fun _ => [] }
  else s

/-- The bucket that `prepare_sample_bucket` returns, after the version has been checked. -/
def prepared (A : Arch) (capacity : Nat) (memory : Nat → Nat) (s : Sample) (index : Nat) :
    Option SampleBucket :=
  if s.nonEmptyBucketMask.testBit index then s.buckets index
  else some (SampleBucket.adjust A capacity memory (s.buckets index))

/-- `operator<<` for the sample of the thread. -/
def record (A : Arch) (version capacity random : Nat) (memory : Nat → Nat) (value : Nat)
    (s : Sample) : Option Sample := do
  let s := s.refresh version
  let index := bucketIndex value
  let bucket ← s.prepared A capacity memory index
  let bucket ← bucket.record random value
  return { s with
    nonEmptyBucketMask := s.nonEmptyBucketMask ||| 1 <<< index
    buckets := Function.update s.buckets index (some bucket)
    recorded := Function.update s.recorded index (value :: s.recorded index) }

end Sample

/-- A sampler with the thread ids of its type. `period` lists the values that were recorded since
the last reset, by thread id and bucket. -/
structure State (Tid : Type*) where
  threadIds : ThreadIds Tid
  storage : EnumerableThreadLocal Sample
  bucketCapacity : Nat → Nat
  version : Nat
  period : Nat → Nat → List Nat

/-- A thread records a value, with a result of `xorshift128_rand` and the contents of new memory;
the capacity of a bucket is set; the sampler is reset; a thread gets an id through another
sampler, or ends. -/
inductive Move
  | record (value random : Nat) (memory : Nat → Nat)
  | setBucketCapacity (index capacity : Nat)
  | reset
  | elsewhere
  | exit

namespace State

variable [DecidableEq Tid]

/-- `operator<<`. -/
def record (A : Arch) (s : State Tid) (t : Tid) (value random : Nat) (memory : Nat → Nat) :
    Option (State Tid) :=
  let current := s.threadIds.currentThreadId t
  let index := bucketIndex value
  let sample := s.storage.element current.1
  (sample.record A s.version (s.bucketCapacity index) random memory value).map fun sample =>
    { s with
      threadIds := current.2
      storage := s.storage.setLocal current.1 fun _ => sample
      period := Function.update s.period current.1
        (Function.update (s.period current.1) index (value :: s.period current.1 index)) }

/-- Values are words of 32 bits, and `_bucket_capacity` has 32 entries of 8 bits. -/
def step (A : Arch) (s : State Tid) : Tid × Move → Option (State Tid)
  | (t, .record value random memory) =>
    if value < 2 ^ 32 then s.record A t value random memory else none
  | (_, .setBucketCapacity index capacity) =>
    if index < 32 then
      some { s with bucketCapacity := Function.update s.bucketCapacity index (capacity % 256) }
    else none
  | (_, .reset) => some { s with version := u32 (s.version + 1), period := fun _ _ => [] }
  | (t, .elsewhere) => some { s with threadIds := (s.threadIds.currentThreadId t).2 }
  | (t, .exit) => some { s with threadIds := s.threadIds.exit t }

end State

/-- `__builtin_ctzl` of a word that is not zero. -/
def ctz (x : Nat) : Nat :=
  if x % 2 = 1 ∨ x = 0 then 0 else ctz (x / 2) + 1
termination_by x

/-- The loop of `for_each` for one sample: the buckets whose bits are set in the mask. -/
def Sample.report (s : Sample) (mask : Nat) : List (Nat × Option SampleBucket) :=
  if mask = 0 then [] else (ctz mask, s.buckets (ctz mask)) :: s.report (mask &&& (mask - 1))
termination_by mask
decreasing_by exact Nat.lt_of_le_of_lt Nat.and_le_right (Nat.sub_one_lt ‹_›)

/-- `for_each`: what the callback gets, with the thread id of the sample in front. -/
def State.forEach (s : State Tid) : List (Nat × Nat × Option SampleBucket) :=
  (List.range (s.storage.visited s.threadIds.threadEnd)).flatMap fun id =>
    let sample := s.storage.element id
    if sample.version ≠ s.version then []
    else (sample.report sample.nonEmptyBucketMask).map fun r => (id, r)

/-- A sampler that has been constructed. -/
def State.new (threadIds : ThreadIds Tid) : State Tid where
  threadIds := threadIds
  storage := ⟨0, fun _ => ⟨0, 0, fun _ => none, fun _ => []⟩⟩
  bucketCapacity := fun _ => 30
  version := 0
  period := fun _ _ => []

/-- The runs of any number of threads, one call after the other. -/
def machine (Tid : Type*) [DecidableEq Tid] (A : Arch) : Machine (State Tid) (Tid × Move) where
  start s := ∃ threadIds, s = .new threadIds
  step := State.step A

/-! ## The bucket of a value -/

/-- The ranges that the class documents. -/
def documentedIndex (value : Nat) : Nat :=
  if value < 2 then 0 else if value < 2 ^ 31 then Nat.log2 value else 30

/-- The highest bit is masked away. -/
theorem bucketIndex_eq (value : Nat) : bucketIndex value = Nat.log2 (value % 2 ^ 31) := by
  have mask : value &&& 0x7FFFFFFF = value % 2 ^ 31 := Nat.and_two_pow_sub_one_eq_mod value 31
  have lt : value % 2 ^ 31 < 2 ^ 31 := Nat.mod_lt value (by decide)
  simp only [bucketIndex, mask, Nat.shiftRight_one]
  generalize value % 2 ^ 31 = x at lt
  rw [Nat.log2_def x]
  split_ifs with zero two two
  · omega
  · rfl
  · have : Nat.log2 (x / 2) < 31 := (Nat.log2_lt zero).mpr (by omega)
    unfold clz
    omega
  · omega

theorem bucketIndex_lt (value : Nat) : bucketIndex value < 31 := by
  rw [bucketIndex_eq]
  by_cases zero : value % 2 ^ 31 = 0
  · rw [zero, Nat.log2_zero]
    decide
  · exact (Nat.log2_lt zero).mpr (Nat.mod_lt value (by decide))

theorem log2_le_log2 {x y : Nat} (le : x ≤ y) : Nat.log2 x ≤ Nat.log2 y := by
  rw [Nat.log2_eq_log_two, Nat.log2_eq_log_two]
  exact Nat.log_mono_right le

/-- Below `2 ^ 31` the index is the documented one. -/
theorem bucketIndex_of_lt {value : Nat} (lt : value < 2 ^ 31) :
    bucketIndex value = documentedIndex value := by
  rw [bucketIndex_eq, Nat.mod_eq_of_lt lt, documentedIndex, if_pos lt]
  split_ifs with small
  · obtain rfl | rfl : value = 0 ∨ value = 1 := by omega
    · rfl
    · rfl
  · rfl

/-- From `2 ^ 31` on it is so only if the next bit is set, too. -/
theorem bucketIndex_of_ge {value : Nat} (ge : 2 ^ 31 ≤ value) (word : value < 2 ^ 32) :
    bucketIndex value = 30 ↔ 3 * 2 ^ 30 ≤ value := by
  have rest : value % 2 ^ 31 = value - 2 ^ 31 := by omega
  rw [bucketIndex_eq, rest]
  by_cases zero : value - 2 ^ 31 = 0
  · rw [zero, Nat.log2_zero]
    omega
  · rw [Nat.log2_eq_iff zero]
    omega

/-- The index of a value is the documented one, and no smaller value has a larger index, exactly
if the value is below `2 ^ 31` or its two highest bits are set. -/
theorem bucketIndex_documented_iff {value : Nat} (word : value < 2 ^ 32) :
    (bucketIndex value = documentedIndex value ↔ value < 2 ^ 31 ∨ 3 * 2 ^ 30 ≤ value) ∧
      ((∀ v ≤ value, bucketIndex v ≤ bucketIndex value) ↔
        value < 2 ^ 31 ∨ 3 * 2 ^ 30 ≤ value) := by
  have most : ∀ v, bucketIndex v ≤ 30 := fun v => Nat.le_of_lt_succ (bucketIndex_lt v)
  obtain lt | ge := Nat.lt_or_ge value (2 ^ 31)
  · refine ⟨iff_of_true (bucketIndex_of_lt lt) (Or.inl lt),
      iff_of_true (fun v le => ?_) (Or.inl lt)⟩
    rw [bucketIndex_eq, bucketIndex_eq, Nat.mod_eq_of_lt lt, Nat.mod_eq_of_lt (le.trans_lt lt)]
    exact log2_le_log2 le
  · have top := bucketIndex_of_ge ge word
    have documented : documentedIndex value = 30 := by
      rw [documentedIndex, if_neg (by omega), if_neg (by omega)]
    rw [documented, top]
    refine ⟨(or_iff_right (not_lt.mpr ge)).symm, fun mono => Or.inr (top.mp ?_), fun high v _ => ?_⟩
    · have below := mono (2 ^ 31 - 1) (by omega)
      rw [show bucketIndex (2 ^ 31 - 1) = 30 by decide] at below
      exact le_antisymm (most value) below
    · rw [top.mpr (high.resolve_left (not_lt.mpr ge))]
      exact most v

theorem bucketIndex_documented_iff_seven : bucketIndex 7 = documentedIndex 7 ∧
    ∀ v ≤ 7, bucketIndex v ≤ bucketIndex 7 :=
  have both := @bucketIndex_documented_iff 7 (by decide)
  ⟨both.1.mpr (by decide), both.2.mpr (by decide)⟩

/-- The value `2 ^ 31` lands in bucket 0, below a smaller value. -/
theorem bucketIndex_high : bucketIndex 2147483648 = 0 ∧ documentedIndex 2147483648 = 30 ∧
    ¬bucketIndex 2147483647 ≤ bucketIndex 2147483648 := by
  decide

end Fuxi.Base.ConcurrentSampler
