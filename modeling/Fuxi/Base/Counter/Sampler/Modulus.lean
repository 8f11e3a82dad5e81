import Fuxi.Base.Counter.Sampler

/-!
# The modulus of a sampler

`record_num` counts the values of a period in 32 bits. As long as it has not come to its largest
value, the modulus is not zero and a full bucket stays full; the next value after that finds a
modulus of zero.
-/

namespace Fuxi.Base.ConcurrentSampler

open Lib

variable {Tid : Type*} {A : Arch}

/-! ## One bucket -/

theorem testBit_insert (mask i j : Nat) :
    (mask ||| 1 <<< i).testBit j = (mask.testBit j || decide (i = j)) := by
  rw [Nat.testBit_or, Nat.one_shiftLeft, Nat.testBit_two_pow]

section Insert

variable {mask i : Nat} {buckets : Nat → Option SampleBucket} {b : SampleBucket}

/-- What is true of the buckets in the mask stays so when one more bucket is put in. -/
theorem used_insert {P P' : Nat → SampleBucket → Prop}
    (old : ∀ j, mask.testBit j = true → ∃ c, buckets j = some c ∧ P j c) (new : P' i b)
    (off : ∀ j c, j ≠ i → P j c → P' j c) (j : Nat) (bit : (mask ||| 1 <<< i).testBit j = true) :
    ∃ c, Function.update buckets i (some b) j = some c ∧ P' j c := by
  by_cases e : j = i
  · subst e
    exact ⟨b, Function.update_self .., new⟩
  · simp only [testBit_insert, Ne.symm e, decide_false, Bool.or_false] at bit
    obtain ⟨c, here, ok⟩ := old j bit
    exact ⟨c, (Function.update_of_ne e _ _).trans here, off j c e ok⟩

/-- In the other buckets nothing is recorded. -/
theorem unused_insert {values : Nat → List Nat} {new : List Nat}
    (old : ∀ j, mask.testBit j = false → values j = []) (j : Nat)
    (bit : (mask ||| 1 <<< i).testBit j = false) : Function.update values i new j = [] := by
  simp only [testBit_insert, Bool.or_eq_false_iff, decide_eq_false_iff_not] at bit
  rw [Function.update_of_ne (Ne.symm bit.2)]
  exact old j bit.1

end Insert

namespace SampleBucket

variable {b b' : SampleBucket} {capacity random value : Nat} {memory : Nat → Nat}

/-- A bucket that has been prepared is empty and has the capacity that was set. -/
theorem adjust_spec (A : Arch) (small : capacity < 256) (memory : Nat → Nat)
    (old : Option SampleBucket) :
    (adjust A capacity memory old).recordNum = 0 ∧
      (adjust A capacity memory old).capacity = capacity := by
  have fits : u16 capacity = capacity := Nat.mod_eq_of_lt (by omega)
  unfold adjust
  cases old with
  | none => exact ⟨rfl, fits⟩
  | some b =>
    simp only
    split_ifs with differs moves
    · exact ⟨rfl, fits⟩
    · exact ⟨rfl, fits⟩
    · exact ⟨rfl, not_not.mp differs⟩

/-- A value is counted. -/
theorem record_spec (h : b.record random value = some b') :
    b'.recordNum = u32 (b.recordNum + 1) ∧ b'.capacity = b.capacity ∧
      b'.allocateSize = b.allocateSize ∧ b'.allocation = b.allocation ∧
      b'.data = match b.place random with
        | some index => Function.update b.data index value
        | none => b.data := by
  unfold record at h
  split_ifs at h
  cases h
  exact ⟨rfl, rfl, rfl, rfl, rfl⟩

/-- The only number of records that leads to a modulus of zero. -/
theorem modulus_eq_zero_iff (lt : b.recordNum < 2 ^ 32) :
    b.modulus = 0 ↔ b.recordNum = 2 ^ 32 - 1 := by
  unfold modulus u32
  omega

theorem record_isSome_iff (small : b.capacity < 256) (lt : b.recordNum < 2 ^ 32) :
    (∃ b', b.record random value = some b') ↔ b.recordNum ≠ 2 ^ 32 - 1 := by
  have zero := modulus_eq_zero_iff lt
  unfold record
  split_ifs with division
  · simp [zero.mp division.2]
  · simp only [Option.some.injEq, exists_eq', true_iff]
    intro last
    exact division ⟨by omega, zero.mpr last⟩

end SampleBucket

/-! ## One sample -/

/-- The buckets in the mask have counted what was recorded; nothing was recorded in the
others. -/
structure Sample.Counted (s : Sample) : Prop where
  used : ∀ j, s.nonEmptyBucketMask.testBit j = true → ∃ b, s.buckets j = some b ∧
    b.recordNum = (s.recorded j).length ∧ b.capacity < 256
  unused : ∀ j, s.nonEmptyBucketMask.testBit j = false → s.recorded j = []
  few : ∀ j, (s.recorded j).length < 2 ^ 32

namespace Sample

variable {s s' : Sample} {version capacity random value : Nat} {memory : Nat → Nat}

/-- What `operator<<` does to a sample. -/
theorem record_cases (h : s.record A version capacity random memory value = some s') :
    ∃ b b', (s.refresh version).prepared A capacity memory (bucketIndex value) = some b ∧
      b.record random value = some b' ∧
      s' = { s.refresh version with
        nonEmptyBucketMask := (s.refresh version).nonEmptyBucketMask ||| 1 <<< bucketIndex value
        buckets := Function.update (s.refresh version).buckets (bucketIndex value) (some b')
        recorded := Function.update (s.refresh version).recorded (bucketIndex value)
          (value :: (s.refresh version).recorded (bucketIndex value)) } := by
  obtain ⟨b, prepared, h⟩ := Option.bind_eq_some_iff.mp h
  obtain ⟨b', record, h⟩ := Option.bind_eq_some_iff.mp h
  cases h
  exact ⟨b, b', prepared, record, rfl⟩

theorem refresh_version (version : Nat) (s : Sample) : (s.refresh version).version = version := by
  unfold refresh
  split_ifs with same
  · rfl
  · exact not_not.mp same

theorem refresh_of_eq (same : s.version = version) : s.refresh version = s :=
  if_neg (not_not.mpr same)

namespace Counted

theorem refresh (h : s.Counted) (version : Nat) : (s.refresh version).Counted := by
  unfold Sample.refresh
  split_ifs
  · exact ⟨by simp, by simp, by simp⟩
  · exact h

theorem prepared (h : s.Counted) (A : Arch) (small : capacity < 256) (memory : Nat → Nat)
    (j : Nat) : ∃ b, s.prepared A capacity memory j = some b ∧
      b.recordNum = (s.recorded j).length ∧ b.capacity < 256 := by
  unfold Sample.prepared
  cases bit : s.nonEmptyBucketMask.testBit j with
  | true => exact h.used j bit
  | false =>
    obtain ⟨zero, capacity⟩ := SampleBucket.adjust_spec A small memory (s.buckets j)
    refine ⟨_, rfl, ?_, by omega⟩
    rw [zero, h.unused j bit]
    rfl

/-- A value is recorded unless the bucket has counted as many as it can. -/
theorem record_isSome_iff (h : s.Counted) (small : capacity < 256) :
    (∃ s', s.record A version capacity random memory value = some s') ↔
      ((s.refresh version).recorded (bucketIndex value)).length ≠ 2 ^ 32 - 1 := by
  have fresh := h.refresh version
  obtain ⟨b, prepared, count, cap⟩ := fresh.prepared A small memory (bucketIndex value)
  have lt := fresh.few (bucketIndex value)
  rw [← count] at lt ⊢
  rw [← @SampleBucket.record_isSome_iff _ random value cap lt]
  constructor
  · rintro ⟨s', h⟩
    obtain ⟨c, b', prepared', record, -⟩ := record_cases h
    rw [prepared] at prepared'
    cases prepared'
    exact ⟨b', record⟩
  · rintro ⟨b', record⟩
    simp [Sample.record, prepared, record]

theorem record (h : s.Counted) (small : capacity < 256)
    (hs : s.record A version capacity random memory value = some s') : s'.Counted := by
  have count := (h.record_isSome_iff small).mp ⟨s', hs⟩
  obtain ⟨b, b', prepared, record, rfl⟩ := record_cases hs
  have fresh := h.refresh version
  obtain ⟨c, prepared', counted, cap⟩ := fresh.prepared A small memory (bucketIndex value)
  rw [prepared] at prepared'
  cases prepared'
  have lt := fresh.few (bucketIndex value)
  obtain ⟨num, same, -⟩ := SampleBucket.record_spec record
  refine ⟨used_insert fresh.used ⟨?_, by omega⟩ fun j c e ok => ?_, unused_insert fresh.unused,
    fun j => ?_⟩
  · simp only [Function.update_self, List.length_cons]
    rw [num, counted, u32_of_lt (by omega)]
  · simpa only [Function.update_of_ne e] using ok
  · by_cases e : j = bucketIndex value
    · subst e
      simp only [Function.update_self, List.length_cons]
      omega
    · simp only [Function.update_of_ne e]
      exact fresh.few j

end Counted

/-- A bucket of the current version is full. -/
def Full (version j : Nat) (s : Sample) : Prop :=
  s.version = version ∧ s.nonEmptyBucketMask.testBit j = true ∧
    ∃ b, s.buckets j = some b ∧ b.capacity ≤ b.recordNum

/-- A full bucket stays full when a value is recorded. -/
theorem Full.record {j : Nat} (full : s.Full version j) (h : s.Counted) (small : capacity < 256)
    (hs : s.record A version capacity random memory value = some s') : s'.Full version j := by
  have count := (h.record_isSome_iff small).mp ⟨s', hs⟩
  obtain ⟨b, b', prepared, record, rfl⟩ := record_cases hs
  obtain ⟨same, bit, c, here, le⟩ := full
  rw [refresh_of_eq same] at prepared count ⊢
  refine ⟨same, ?_, ?_⟩
  · rw [testBit_insert, bit, Bool.true_or]
  · by_cases e : j = bucketIndex value
    · subst e
      rw [Sample.prepared, if_pos bit, here] at prepared
      cases prepared
      obtain ⟨d, here', counted, -⟩ := h.used _ bit
      rw [here] at here'
      cases here'
      have lt := h.few (bucketIndex value)
      obtain ⟨num, cap, -⟩ := SampleBucket.record_spec record
      refine ⟨b', Function.update_self .., ?_⟩
      rw [num, cap, u32_of_lt (by omega)]
      omega
    · exact ⟨c, (Function.update_of_ne e _ _).trans here, le⟩

end Sample

/-! ## The sampler -/

namespace State

variable [DecidableEq Tid]

/-- The sample of a thread. -/
def sample (s : State Tid) (t : Tid) : Sample :=
  s.storage.element (s.threadIds.currentThreadId t).1

/-- The number of values in the bucket of a value since its thread has emptied the mask, or has
to empty it. -/
def count (s : State Tid) (t : Tid) (value : Nat) : Nat :=
  (((s.sample t).refresh s.version).recorded (bucketIndex value)).length

/-- No value is recorded in a bucket that has counted `2 ^ 32 - 1` values. -/
def Uncrowded (s : State Tid) : Tid × Move → Prop
  | (t, .record value _ _) => s.count t value ≠ 2 ^ 32 - 1
  | _ => True

/-- A bucket is full in the current period. -/
def Full (s : State Tid) (id j : Nat) : Prop := (s.storage.element id).Full s.version j

/-- The modulus of `operator<<` is not zero. -/
def Divides (A : Arch) (s : State Tid) : Tid × Move → Prop
  | (t, .record value _ memory) => ∃ b, ((s.sample t).refresh s.version).prepared A
      (s.bucketCapacity (bucketIndex value)) memory (bucketIndex value) = some b ∧ b.modulus ≠ 0
  | _ => True

/-- A call has a result, and a full bucket stays full. -/
structure Sound (A : Arch) (s : State Tid) (m : Tid × Move) : Prop where
  divides : s.Divides A m
  full : ∃ s', s.step A m = some s' ∧ ∀ id j, s.Full id j → s'.Full id j

/-- Calls that a caller may make between two resets. -/
def Allowed : Move → Prop
  | .record value _ _ => value < 2 ^ 32
  | .setBucketCapacity index _ => index < 32
  | .reset => False
  | .elsewhere | .exit => True

/-- The invariant. -/
structure Inv (s : State Tid) : Prop where
  counted : ∀ id, (s.storage.element id).Counted
  capacity : ∀ j, s.bucketCapacity j < 256

variable {s s' : State Tid} {t : Tid}

theorem Inv.record {value random : Nat} {memory : Nat → Nat} (h : s.Inv)
    (hs : s.record A t value random memory = some s') : s'.Inv := by
  obtain ⟨sample, recorded, rfl⟩ := Option.map_eq_some_iff.mp hs
  refine ⟨fun id => ?_, h.capacity⟩
  simp only [EnumerableThreadLocal.setLocal, Function.update_apply]
  split_ifs with e
  · exact (h.counted _).record (h.capacity _) recorded
  · exact h.counted id

/-- A full bucket stays full when a value is recorded in any bucket. -/
theorem Inv.full_record {value random : Nat} {memory : Nat → Nat} (h : s.Inv)
    (hs : s.record A t value random memory = some s') {id j : Nat} (full : s.Full id j) :
    s'.Full id j := by
  obtain ⟨sample, recorded, rfl⟩ := Option.map_eq_some_iff.mp hs
  simp only [Full, EnumerableThreadLocal.setLocal, Function.update_apply]
  split_ifs with e
  · subst e
    exact full.record (h.counted _) (h.capacity _) recorded
  · exact full

theorem Inv.step {m : Tid × Move} (h : s.Inv) (hs : s.step A m = some s') : s'.Inv := by
  obtain ⟨t, m⟩ := m
  cases m with
  | record value random memory =>
    obtain ⟨-, hs⟩ := Option.ite_none_right_eq_some.mp hs
    exact h.record hs
  | setBucketCapacity index capacity =>
    obtain ⟨-, hs⟩ := Option.ite_none_right_eq_some.mp hs
    cases hs
    refine ⟨h.counted, fun j => ?_⟩
    simp only [Function.update_apply]
    split_ifs
    · exact Nat.mod_lt _ (by decide)
    · exact h.capacity j
  | reset | elsewhere | exit =>
    cases hs
    exact ⟨h.counted, h.capacity⟩

omit [DecidableEq Tid] in
theorem inv_new (threadIds : ThreadIds Tid) : (new threadIds).Inv where
  counted id := ⟨by simp [new], by simp [new], by simp [new]⟩
  capacity j := by simp [new]

/-- A call is sound exactly if its bucket can count one more value. -/
theorem Inv.sound_iff_uncrowded (h : s.Inv) {m : Tid × Move} (allowed : Allowed m.2) :
    s.Sound A m ↔ s.Uncrowded m := by
  obtain ⟨t, m⟩ := m
  cases m with
  | record value random memory =>
    have counted := h.counted (s.threadIds.currentThreadId t).1
    have small := h.capacity (bucketIndex value)
    obtain ⟨b, prepared, num, -⟩ :=
      (counted.refresh s.version).prepared A small memory (bucketIndex value)
    have few := (counted.refresh s.version).few (bucketIndex value)
    constructor
    · rintro ⟨-, s', hs, -⟩
      obtain ⟨-, hs⟩ := Option.ite_none_right_eq_some.mp hs
      obtain ⟨sample, recorded, -⟩ := Option.map_eq_some_iff.mp hs
      exact (counted.record_isSome_iff small).mp ⟨sample, recorded⟩
    · intro count
      obtain ⟨sample, recorded⟩ := (counted.record_isSome_iff small).mpr count
      have hs : ∃ s', s.record A t value random memory = some s' :=
        ⟨_, Option.map_eq_some_iff.mpr ⟨sample, recorded, rfl⟩⟩
      obtain ⟨s', hs⟩ := hs
      refine ⟨⟨b, prepared, fun zero => ?_⟩, s', (if_pos allowed).trans hs, fun id j =>
        h.full_record hs⟩
      rw [SampleBucket.modulus_eq_zero_iff (num ▸ few), num] at zero
      exact count zero
  | setBucketCapacity index capacity =>
    refine iff_of_true ⟨trivial, _, if_pos allowed, fun id j full => full⟩ trivial
  | reset => cases allowed
  | elsewhere | exit => exact iff_of_true ⟨trivial, _, rfl, fun id j full => full⟩ trivial

/-- In every state that a run can reach, the next call before a reset is sound exactly if it
records no value in a bucket that has counted `2 ^ 32 - 1` of them. -/
theorem sound_iff_of_reach (h : (machine Tid A).Reach Machine.free s) {m : Tid × Move}
    (allowed : Allowed m.2) : s.Sound A m ↔ s.Uncrowded m := by
  have inv : s.Inv := by
    refine h.inv (P := Inv) ?_ fun s m s' inv hs _ => inv.step hs
    rintro s ⟨threadIds, rfl⟩
    exact inv_new threadIds
  exact inv.sound_iff_uncrowded allowed

/-- The first sampler of a program. -/
def fresh (Tid : Type*) : State Tid := new ⟨.unused .uint16 fun _ => 0, [], fun _ => 0⟩

theorem start_fresh : (machine Tid A).start (fresh Tid) := ⟨_, rfl⟩

/-- A capacity of one: the second value of a period meets a modulus. -/
def oneOfTwo : List (Unit × Move) :=
  [((), .setBucketCapacity 1 1), ((), .record 2 0 fun _ => 0), ((), .record 3 5 fun _ => 0)]

theorem sound_iff_of_reach_oneOfTwo : ∃ s, (machine Unit .other).run (fresh Unit) oneOfTwo =
    some s ∧ s.count () 2 = 2 ∧ s.Sound .other ((), .record 2 7 fun _ => 0) := by
  have along : ((machine Unit .other).run (fresh Unit) oneOfTwo).map (fun s => s.count () 2) =
      some 2 := by decide +kernel
  obtain ⟨s, run, count⟩ := Option.map_eq_some_iff.mp along
  have reach := Machine.Reach.of_run (.start start_fresh) run
  have allowed : Allowed (.record 2 7 fun _ => 0) := show 2 < 2 ^ 32 by decide
  refine ⟨s, run, count,
    (sound_iff_of_reach reach (m := ((), .record 2 7 fun _ => 0)) allowed).mpr ?_⟩
  rw [Uncrowded, count]
  decide

/-! ## As many values as a bucket can count -/

/-- One thread has recorded so many values in bucket 1. -/
structure Counting (n : Nat) (s : State Unit) : Prop where
  inv : s.Inv
  id : (s.threadIds.currentThreadId ()).1 = 0
  current : (s.storage.element 0).version = s.version
  count : ((s.storage.element 0).recorded 1).length = n

theorem Counting.count_eq {n : Nat} {s : State Unit} (h : Counting n s) : s.count () 2 = n := by
  have index : bucketIndex 2 = 1 := by decide
  rw [State.count, sample, h.id, Sample.refresh_of_eq h.current, index, h.count]

theorem Counting.record {n : Nat} {s : State Unit} (h : Counting n s) (more : n < 2 ^ 32 - 1) :
    ∃ s', s.step A ((), .record 2 0 fun _ => 0) = some s' ∧ Counting (n + 1) s' := by
  have uncrowded : s.Uncrowded ((), .record 2 0 fun _ => 0) := by
    rw [Uncrowded, h.count_eq]
    exact more.ne
  have allowed : Allowed (.record 2 0 fun _ => 0) := show 2 < 2 ^ 32 by decide
  obtain ⟨-, s', hs, -⟩ :=
    (h.inv.sound_iff_uncrowded (A := A) (m := ((), .record 2 0 fun _ => 0)) allowed).mpr uncrowded
  refine ⟨s', hs, ?_⟩
  have inv := h.inv.step hs
  rw [step, if_pos (by decide)] at hs
  obtain ⟨sample, recorded, rfl⟩ := Option.map_eq_some_iff.mp hs
  obtain ⟨b, b', -, -, rfl⟩ := Sample.record_cases recorded
  have index : bucketIndex 2 = 1 := by decide
  refine ⟨inv, ?_, ?_, ?_⟩
  · rw [ThreadIds.currentThreadId_again]
    exact h.id
  · simp only [h.id, EnumerableThreadLocal.setLocal, Function.update_self]
    exact Sample.refresh_version _ _
  · simp only [h.id, EnumerableThreadLocal.setLocal, Function.update_self, index,
      Sample.refresh_of_eq h.current, List.length_cons, h.count]

theorem exists_counting {n : Nat} (le : n ≤ 2 ^ 32 - 1) :
    ∃ s, (machine Unit A).Reach Machine.free s ∧ Counting n s := by
  induction n with
  | zero => exact ⟨fresh Unit, .start start_fresh, inv_new _, rfl, rfl, rfl⟩
  | succ n ih =>
    obtain ⟨s, reach, counting⟩ := ih (by omega)
    obtain ⟨s', taken, next⟩ := counting.record (by omega)
    exact ⟨s', Machine.Reach.step (M := machine Unit A) (i := ((), .record 2 0 fun _ => 0)) reach
      taken trivial, next⟩

/-- After `2 ^ 32 - 1` values in one bucket the modulus of the next one is zero. -/
theorem modulus_zero : ∃ s b, (machine Unit .x86_64).Reach Machine.free s ∧
    s.count () 2 = 2 ^ 32 - 1 ∧ ((s.sample ()).refresh s.version).prepared .x86_64
      (s.bucketCapacity (bucketIndex 2)) (fun _ => 0) (bucketIndex 2) = some b ∧ b.modulus = 0 ∧
    ¬s.Divides .x86_64 ((), .record 2 0 fun _ => 0) := by
  obtain ⟨s, reach, counting⟩ := exists_counting (A := .x86_64) le_rfl
  have counted := (counting.inv.counted (s.threadIds.currentThreadId ()).1).refresh s.version
  obtain ⟨b, prepared, num, -⟩ := counted.prepared .x86_64
    (counting.inv.capacity (bucketIndex 2)) (fun _ => 0) (bucketIndex 2)
  have few := counted.few (bucketIndex 2)
  have count : b.recordNum = 2 ^ 32 - 1 := num.trans counting.count_eq
  have zero : b.modulus = 0 := (SampleBucket.modulus_eq_zero_iff (num ▸ few)).mpr count
  refine ⟨s, b, reach, counting.count_eq, prepared, zero, ?_⟩
  rintro ⟨c, prepared', divides⟩
  rw [sample, prepared] at prepared'
  cases prepared'
  exact divides zero

end State

end Fuxi.Base.ConcurrentSampler
