import Fuxi.Base.Counter.Sampler.Modulus

/-!
# What a sampler reports

As long as the version of the sampler has not come round, a sample of the current version has
counted the values of the current period, and the entries of its buckets that count are among
them. Whatever capacity is set, a bucket keeps to the memory that was allocated for it.
-/

namespace Fuxi.Base.ConcurrentSampler

open Lib

variable {Tid : Type*} {A : Arch}

/-- The size that is allocated has room for the header and the data, and fits into its field. -/
theorem allocateSize_spec (A : Arch) {capacity : Nat} (small : capacity < 256) :
    sizeofSampleBucket + 4 * capacity ≤ allocateSize A capacity ∧
      allocateSize A capacity < 65536 := by
  have line : A.cachelineSize.isPowerOfTwo ∧ A.cachelineSize ≤ 128 := by
    cases A with
    | x86_64 => exact ⟨⟨7, rfl⟩, by decide⟩
    | other => exact ⟨⟨6, rfl⟩, by decide⟩
  have bytes : u64 (sizeofSampleBucket + 4 * capacity) = sizeofSampleBucket + 4 * capacity :=
    u64_of_lt (by unfold sizeofSampleBucket; omega)
  have pos := Nat.pos_of_isPowerOfTwo line.1
  have low := le_alignUp (sizeofSampleBucket + 4 * capacity) pos
  have high := alignUp_lt (sizeofSampleBucket + 4 * capacity) pos
  rw [allocateSize, bytes, alignMask_of_isPowerOfTwo line.1 (by unfold sizeofSampleBucket; omega)
    (by omega)]
  unfold sizeofSampleBucket at *
  omega

namespace SampleBucket

variable {b b' : SampleBucket} {capacity random value : Nat} {memory : Nat → Nat}

/-- The data of a bucket lie in its memory. -/
structure Sized (b : SampleBucket) : Prop where
  fits : sizeofSampleBucket + 4 * b.capacity ≤ b.allocation
  size : b.allocateSize = b.allocation
  small : b.capacity < 256

/-- A bucket that has been prepared keeps to its memory, old or new. -/
theorem Sized.adjust (small : capacity < 256) (memory : Nat → Nat) {old : Option SampleBucket}
    (h : ∀ b, old = some b → b.Sized) : (adjust A capacity memory old).Sized := by
  obtain ⟨fits, short⟩ := allocateSize_spec A small
  have cap : u16 capacity = capacity := Nat.mod_eq_of_lt (by omega)
  have size : u16 (ConcurrentSampler.allocateSize A capacity) =
      ConcurrentSampler.allocateSize A capacity := Nat.mod_eq_of_lt short
  have new : (new A capacity memory).Sized := by
    refine ⟨?_, size, ?_⟩
    · rw [SampleBucket.new, cap]
      exact fits
    · rw [SampleBucket.new, cap]
      exact small
  unfold SampleBucket.adjust
  cases old with
  | none => exact new
  | some b =>
    have sized := h b rfl
    simp only
    split_ifs with differs moves
    · exact new
    · rw [ne_eq, not_not] at moves
      refine ⟨?_, sized.size, ?_⟩
      · simp only [cap, ← sized.size, ← moves]
        exact fits
      · simp only [cap]
        exact small
    · exact ⟨sized.fits, sized.size, sized.small⟩

/-- A value is stored within the capacity. -/
theorem place_lt {j : Nat} (h : b.place random = some j) : j < b.capacity := by
  unfold place at h
  split_ifs at h with room
  · cases h
    exact room
  · simp only at h
    split_ifs at h with kept
    cases h
    exact kept

/-- The entries that count are among some values. -/
def Among (b : SampleBucket) (values : List Nat) : Prop :=
  ∀ k < min b.recordNum b.capacity, b.data k ∈ values

/-- The value that is recorded is one more of them. -/
theorem Among.record {values : List Nat} (h : b.Among values)
    (hb : b.record random value = some b') (few : b.recordNum + 1 < 2 ^ 32) :
    b'.Among (value :: values) := by
  obtain ⟨num, cap, -, -, data⟩ := record_spec hb
  intro k lt
  rw [num, cap, u32_of_lt few] at lt
  rw [data]
  have old : b.place random ≠ some k → k < min b.recordNum b.capacity := fun elsewhere => by
    by_contra past
    have last : k = b.recordNum := by omega
    refine elsewhere ?_
    rw [place, if_pos (by omega), last]
  cases at_ : b.place random with
  | none => exact List.mem_cons_of_mem _ (h k (old (by rw [at_]; simp)))
  | some j =>
    by_cases e : k = j
    · subst e
      simp only [Function.update_self]
      exact List.mem_cons_self
    · simp only [Function.update_of_ne e]
      exact List.mem_cons_of_mem _ (h k (old (by rw [at_]; simpa using Ne.symm e)))

end SampleBucket

/-! ## The loop over the mask -/

theorem testBit_ctz {x : Nat} (pos : x ≠ 0) : x.testBit (ctz x) = true := by
  induction x using Nat.strong_induction_on with
  | _ x ih =>
    rw [ctz]
    split_ifs with odd
    · have := odd.resolve_right pos
      simpa [Nat.testBit_zero] using this
    · rw [Nat.testBit_succ]
      exact ih (x / 2) (by omega) (by omega)

/-- The step of the loop clears the lowest bit. -/
theorem testBit_and_pred {x : Nat} (pos : x ≠ 0) (j : Nat) :
    (x &&& (x - 1)).testBit j = (x.testBit j && decide (j ≠ ctz x)) := by
  induction x using Nat.strong_induction_on generalizing j with
  | _ x ih =>
    rw [ctz, Nat.testBit_and]
    split_ifs with odd
    · have half : (x - 1) / 2 = x / 2 := by omega
      cases j with
      | zero => simp [Nat.testBit_zero]; omega
      | succ j => simp [Nat.testBit_succ, half]
    · have half : (x - 1) / 2 = x / 2 - 1 := by omega
      cases j with
      | zero => simp [Nat.testBit_zero]; omega
      | succ j =>
        rw [Nat.testBit_succ, Nat.testBit_succ, half, ← Nat.testBit_and,
          ih (x / 2) (by omega) (by omega)]
        simp

/-- A bucket is reported only if its bit is set. -/
theorem Sample.mem_report {s : Sample} {mask : Nat} {r : Nat × Option SampleBucket}
    (mem : r ∈ s.report mask) : mask.testBit r.1 = true ∧ r.2 = s.buckets r.1 := by
  induction mask using Nat.strong_induction_on with
  | _ mask ih =>
    rw [Sample.report] at mem
    split_ifs at mem with zero
    · cases mem
    · obtain rfl | mem := List.mem_cons.mp mem
      · exact ⟨testBit_ctz zero, rfl⟩
      · have less : mask &&& (mask - 1) < mask :=
          Nat.lt_of_le_of_lt Nat.and_le_right (Nat.sub_one_lt zero)
        obtain ⟨bit, bucket⟩ := ih _ less mem
        rw [Nat.testBit_and, Bool.and_eq_true] at bit
        exact ⟨bit.1, bucket⟩

/-- A bucket whose bit is set is reported. -/
theorem Sample.report_mem (s : Sample) {mask j : Nat} (bit : mask.testBit j = true) :
    (j, s.buckets j) ∈ s.report mask := by
  induction mask using Nat.strong_induction_on with
  | _ mask ih =>
    have pos : mask ≠ 0 := by
      rintro rfl
      simp at bit
    rw [Sample.report, if_neg pos]
    by_cases first : j = ctz mask
    · rw [first]
      exact List.mem_cons_self
    · have less : mask &&& (mask - 1) < mask :=
        Nat.lt_of_le_of_lt Nat.and_le_right (Nat.sub_one_lt pos)
      refine List.mem_cons_of_mem _ (ih _ less ?_)
      rw [testBit_and_pred pos, bit, decide_eq_true first, Bool.and_true]

/-! ## The values of a period -/

/-- A sample has counted the values of a period, and the entries that count are among them. -/
structure Sample.Holds (s : Sample) (period : Nat → List Nat) : Prop where
  used : ∀ j, s.nonEmptyBucketMask.testBit j = true → ∃ b, s.buckets j = some b ∧
    b.recordNum = (period j).length ∧ b.Among (period j)
  unused : ∀ j, s.nonEmptyBucketMask.testBit j = false → period j = []

/-- Every bucket of a sample keeps to its memory. -/
def Sample.Sized (s : Sample) : Prop := ∀ j b, s.buckets j = some b → b.Sized

namespace Sample

variable {s s' : Sample} {version capacity random value : Nat} {memory : Nat → Nat}
variable {period : Nat → List Nat}

theorem refresh_buckets (version : Nat) (s : Sample) : (s.refresh version).buckets = s.buckets := by
  unfold refresh
  split_ifs <;> rfl

/-- The sample of an older version holds nothing, and nothing has been recorded. -/
theorem Holds.refresh (current : s.version = version → s.Holds period)
    (stale : s.version ≠ version → ∀ j, period j = []) : (s.refresh version).Holds period := by
  unfold Sample.refresh
  split_ifs with same
  · exact ⟨by simp, fun j _ => stale same j⟩
  · exact current (not_not.mp same)

theorem Sized.prepared (h : s.Sized) (small : capacity < 256) {j : Nat} {b : SampleBucket}
    (hb : s.prepared A capacity memory j = some b) : b.Sized := by
  unfold Sample.prepared at hb
  split_ifs at hb
  · exact h j b hb
  · cases hb
    exact SampleBucket.Sized.adjust small memory (h j)

theorem Holds.prepared (h : s.Holds period) (A : Arch) (small : capacity < 256)
    (memory : Nat → Nat) (j : Nat) : ∃ b, s.prepared A capacity memory j = some b ∧
      b.recordNum = (period j).length ∧ b.Among (period j) := by
  unfold Sample.prepared
  cases bit : s.nonEmptyBucketMask.testBit j with
  | true => exact h.used j bit
  | false =>
    have zero := (SampleBucket.adjust_spec A small memory (s.buckets j)).1
    refine ⟨_, rfl, ?_, fun k lt => ?_⟩
    · rw [zero, h.unused j bit]
      rfl
    · rw [zero, Nat.zero_min] at lt
      cases lt

/-- One more value of the period. -/
theorem Holds.record (h : (s.refresh version).Holds period) (small : capacity < 256)
    (few : (period (bucketIndex value)).length + 1 < 2 ^ 32)
    (hs : s.record A version capacity random memory value = some s') :
    s'.Holds
      (Function.update period (bucketIndex value) (value :: period (bucketIndex value))) := by
  obtain ⟨b, b', prepared, record, rfl⟩ := record_cases hs
  obtain ⟨c, prepared', num, among⟩ := h.prepared A small memory (bucketIndex value)
  rw [prepared] at prepared'
  cases prepared'
  refine ⟨used_insert h.used ?_ fun j c e ok => ?_, unused_insert h.unused⟩
  · simp only [Function.update_self]
    refine ⟨?_, among.record record (by omega)⟩
    rw [(SampleBucket.record_spec record).1, num, u32_of_lt few, List.length_cons]
  · simpa only [Function.update_of_ne e] using ok

theorem record_version (hs : s.record A version capacity random memory value = some s') :
    s'.version = version := by
  obtain ⟨b, b', -, -, rfl⟩ := record_cases hs
  exact refresh_version version s

theorem Sized.record (h : s.Sized) (small : capacity < 256)
    (hs : s.record A version capacity random memory value = some s') : s'.Sized := by
  obtain ⟨b, b', prepared, record, rfl⟩ := record_cases hs
  have fresh : (s.refresh version).Sized := by
    rw [Sized, refresh_buckets]
    exact h
  have sized := fresh.prepared small prepared
  obtain ⟨-, cap, size, allocation, -⟩ := SampleBucket.record_spec record
  intro j c hc
  by_cases e : j = bucketIndex value
  · subst e
    simp only [Function.update_self, Option.some.injEq] at hc
    subst hc
    exact ⟨cap ▸ allocation ▸ sized.fits, size.trans (sized.size.trans allocation.symm),
      cap ▸ sized.small⟩
  · simp only [Function.update_of_ne e] at hc
    exact fresh j c hc

end Sample

/-! ## The sampler -/

namespace State

/-- What `for_each` reports for a bucket was recorded in it since the last reset, and is
counted. -/
def Reports (s : State Tid) : Prop := ∀ r ∈ s.forEach, ∃ b, r.2.2 = some b ∧
  b.recordNum = (s.period r.1 r.2.1).length ∧ b.Among (s.period r.1 r.2.1)

variable [DecidableEq Tid]

/-- Wherever `operator<<` stores a value next, it lies within the capacity of a bucket whose
memory has room for it. -/
def Stores (A : Arch) (s : State Tid) : Prop := ∀ t value random memory, ∃ b,
  ((s.sample t).refresh s.version).prepared A (s.bucketCapacity (bucketIndex value)) memory
      (bucketIndex value) = some b ∧
    sizeofSampleBucket + 4 * b.capacity ≤ b.allocation ∧
    ∀ j, b.place random = some j → j < b.capacity

/-- Fewer than `2 ^ 32 - 1` values in each bucket and period, capacities of the 31 buckets only,
and fewer than `2 ^ 32` resets. -/
def bounded (s : State Tid) (m : Tid × Move) (s' : State Tid) : Prop :=
  match m.2 with
  | .record value _ _ =>
    (s'.period (s.threadIds.currentThreadId m.1).1 (bucketIndex value)).length < 2 ^ 32 - 1
  | .setBucketCapacity index _ => index ≤ 30
  | .reset => s.version + 1 < 2 ^ 32
  | .elsewhere | .exit => True

instance (s : State Tid) : (m : Tid × Move) → (s' : State Tid) → Decidable (s.bounded m s')
  | (_, .record _ _ _), _ => inferInstanceAs (Decidable (_ < _))
  | (_, .setBucketCapacity _ _), _ => inferInstanceAs (Decidable (_ ≤ _))
  | (_, .reset), _ => inferInstanceAs (Decidable (_ < _))
  | (_, .elsewhere), _ | (_, .exit), _ => .isTrue trivial

omit [DecidableEq Tid] in
/-- A sample of the current version holds the values of the period, and nothing was recorded with
an older one. -/
structure Genuine (s : State Tid) : Prop where
  current : ∀ id, (s.storage.element id).version = s.version →
    (s.storage.element id).Holds (s.period id)
  stale : ∀ id, (s.storage.element id).version ≠ s.version → ∀ j, s.period id j = []
  le : ∀ id, (s.storage.element id).version ≤ s.version
  sized : ∀ id, (s.storage.element id).Sized
  capacity : ∀ j, s.bucketCapacity j < 256

namespace Genuine

variable {s s' : State Tid} {t : Tid}

omit [DecidableEq Tid] in
theorem refresh (h : s.Genuine) (id : Nat) :
    ((s.storage.element id).refresh s.version).Holds (s.period id) :=
  .refresh (h.current id) (h.stale id)

omit [DecidableEq Tid] in
theorem reports (h : s.Genuine) : s.Reports := by
  intro r mem
  obtain ⟨id, -, mem⟩ := List.mem_flatMap.mp mem
  simp only at mem
  split_ifs at mem with same
  · cases mem
  · obtain ⟨q, reported, rfl⟩ := List.mem_map.mp mem
    obtain ⟨bit, bucket⟩ := Sample.mem_report reported
    rw [ne_eq, not_not] at same
    obtain ⟨b, here, num, among⟩ := (h.current id same).used q.1 bit
    exact ⟨b, bucket.trans here, num, among⟩

omit [DecidableEq Tid] in
/-- A bucket in which values were recorded is reported, if its thread id is visited. -/
theorem reported (h : s.Genuine) {id j : Nat}
    (visited : id < s.storage.visited s.threadIds.threadEnd) (recorded : s.period id j ≠ []) :
    ∃ b, (id, j, some b) ∈ s.forEach ∧ b.recordNum = (s.period id j).length := by
  have same : (s.storage.element id).version = s.version := by
    by_contra older
    exact recorded (h.stale id older j)
  have bit : (s.storage.element id).nonEmptyBucketMask.testBit j = true := by
    by_contra unset
    exact recorded ((h.current id same).unused j (by simpa using unset))
  obtain ⟨b, here, num, -⟩ := (h.current id same).used j bit
  refine ⟨b, List.mem_flatMap.mpr ⟨id, List.mem_range.mpr visited, ?_⟩, num⟩
  rw [← here]
  simp only [same, ne_eq, not_true_eq_false, if_false]
  exact List.mem_map_of_mem ((s.storage.element id).report_mem bit)

theorem stores (h : s.Genuine) : s.Stores A := by
  intro t value random memory
  have small := h.capacity (bucketIndex value)
  obtain ⟨b, prepared, -⟩ := (h.refresh (s.threadIds.currentThreadId t).1).prepared A small memory
    (bucketIndex value)
  have fresh : ((s.sample t).refresh s.version).Sized := by
    rw [Sample.Sized, Sample.refresh_buckets]
    exact h.sized _
  exact ⟨b, prepared, (fresh.prepared small prepared).fits, fun j => SampleBucket.place_lt⟩

omit [DecidableEq Tid] in
theorem new (threadIds : ThreadIds Tid) : (State.new threadIds).Genuine where
  current id _ := ⟨by simp [State.new], fun j _ => rfl⟩
  stale id ne := absurd rfl ne
  le id := Nat.le_refl 0
  sized id j b hb := by cases hb
  capacity j := by simp [State.new]

theorem record {value random : Nat} {memory : Nat → Nat} (h : s.Genuine)
    (hs : s.record A t value random memory = some s')
    (few : (s'.period (s.threadIds.currentThreadId t).1 (bucketIndex value)).length < 2 ^ 32 - 1) :
    s'.Genuine := by
  obtain ⟨sample, recorded, rfl⟩ := Option.map_eq_some_iff.mp hs
  simp only [Function.update_self, List.length_cons] at few
  have small := h.capacity (bucketIndex value)
  have holds := Sample.Holds.record (h.refresh _) small (by omega) recorded
  have version := Sample.record_version recorded
  refine ⟨fun id same => ?_, fun id ne j => ?_, fun id => ?_, fun id => ?_, h.capacity⟩
  · by_cases e : id = (s.threadIds.currentThreadId t).1
    · subst e
      simpa only [EnumerableThreadLocal.setLocal, Function.update_self] using holds
    · simp only [EnumerableThreadLocal.setLocal, Function.update_of_ne e] at same ⊢
      exact h.current id same
  · by_cases e : id = (s.threadIds.currentThreadId t).1
    · subst e
      simp only [EnumerableThreadLocal.setLocal, Function.update_self] at ne
      exact absurd version ne
    · simp only [EnumerableThreadLocal.setLocal, Function.update_of_ne e] at ne ⊢
      exact h.stale id ne j
  · simp only [EnumerableThreadLocal.setLocal, Function.update_apply]
    split_ifs
    · exact version.le
    · exact h.le id
  · simp only [EnumerableThreadLocal.setLocal, Function.update_apply]
    split_ifs
    · exact (h.sized _).record small recorded
    · exact h.sized id

omit [DecidableEq Tid] in
/-- After a reset no sample has the version of the sampler. -/
theorem reset (h : s.Genuine) (few : s.version + 1 < 2 ^ 32) :
    { s with version := u32 (s.version + 1), period := fun _ _ => [] }.Genuine := by
  have next : u32 (s.version + 1) = s.version + 1 := u32_of_lt few
  refine ⟨fun id same => ?_, fun id _ j => rfl, fun id => ?_, h.sized, h.capacity⟩
  · have le := h.le id
    replace same : (s.storage.element id).version = u32 (s.version + 1) := same
    omega
  · have le := h.le id
    show (s.storage.element id).version ≤ u32 (s.version + 1)
    omega

theorem step {m : Tid × Move} (h : s.Genuine) (hs : s.step A m = some s')
    (side : s.bounded m s') : s'.Genuine := by
  obtain ⟨t, m⟩ := m
  cases m with
  | record value random memory =>
    obtain ⟨-, hs⟩ := Option.ite_none_right_eq_some.mp hs
    exact h.record hs side
  | setBucketCapacity index capacity =>
    obtain ⟨-, hs⟩ := Option.ite_none_right_eq_some.mp hs
    cases hs
    refine ⟨h.current, h.stale, h.le, h.sized, fun j => ?_⟩
    simp only [Function.update_apply]
    split_ifs
    · exact Nat.mod_lt _ (by decide)
    · exact h.capacity j
  | reset =>
    cases hs
    exact h.reset side
  | elsewhere | exit =>
    cases hs
    exact ⟨h.current, h.stale, h.le, h.sized, h.capacity⟩

end Genuine

theorem genuine_of_reach {s : State Tid} (h : (machine Tid A).Reach bounded s) : s.Genuine := by
  refine h.inv (P := Genuine) ?_ fun s m s' genuine hs side => genuine.step hs side
  rintro s ⟨threadIds, rfl⟩
  exact .new threadIds

/-- In every run within the bounds, values are stored in the memory of their bucket, and what is
reported was recorded in the period. -/
theorem stores_and_reports_of_reach {s : State Tid} (h : (machine Tid A).Reach bounded s) :
    s.Stores A ∧ s.Reports :=
  ⟨(genuine_of_reach h).stores, (genuine_of_reach h).reports⟩

/-- In every such run, a bucket in which values were recorded is reported with their number, if
`for_each` visits its thread id. -/
theorem reported_of_reach {s : State Tid} (h : (machine Tid A).Reach bounded s) {id j : Nat}
    (visited : id < s.storage.visited s.threadIds.threadEnd) (recorded : s.period id j ≠ []) :
    ∃ b, (id, j, some b) ∈ s.forEach ∧ b.recordNum = (s.period id j).length :=
  (genuine_of_reach h).reported visited recorded

/-- A capacity of one for two values, a reset, and a larger capacity for two more. -/
def twoPeriods : List (Unit × Move) :=
  oneOfTwo ++ [((), .reset), ((), .setBucketCapacity 1 40), ((), .record 2 0 fun _ => 7),
    ((), .record 3 0 fun _ => 7)]

theorem stores_and_reports_of_reach_twoPeriods : ∃ s,
    (machine Unit .other).run (fresh Unit) twoPeriods = some s ∧ s.period 0 1 = [3, 2] ∧
      s.forEach.map (fun r => (r.1, r.2.1, r.2.2.map SampleBucket.recordNum)) = [(0, 1, some 2)] ∧
      s.Stores .other ∧ s.Reports := by
  have along : (machine Unit .other).Along bounded (fresh Unit) twoPeriods := by decide +kernel
  have values : ((machine Unit .other).run (fresh Unit) twoPeriods).map (fun s => s.period 0 1) =
      some [3, 2] := by decide +kernel
  obtain ⟨s, run, reach, period⟩ := (Machine.Reach.start start_fresh).of_along_seen along values
  have seen : ((machine Unit .other).run (fresh Unit) twoPeriods).map
      (fun s => s.forEach.map fun r => (r.1, r.2.1, r.2.2.map SampleBucket.recordNum)) =
        some [(0, 1, some 2)] := by decide +kernel
  rw [run, Option.map_some, Option.some.injEq] at seen
  exact ⟨s, run, period, seen, stores_and_reports_of_reach reach⟩

end State

end Fuxi.Base.ConcurrentSampler
