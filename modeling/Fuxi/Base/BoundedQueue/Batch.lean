import Fuxi.Base.BoundedQueue

/-!
# The slots of a batch

`push_n` and `pop_n` claim `num` tickets and split them once, where the next round of the ring
begins. The indices are 64-bit words here: they wrap around with the sums that the code compares.
-/

namespace Fuxi.Base

open Lib

/-- Difference of 64-bit words. -/
def sub64 (x y : Nat) : Nat := u64 (x + (18446744073709551616 - y))

/-- A slot that a batch works on, for which ticket, and the version that it expects there. -/
structure Access where
  ticket : Nat
  slot : Nat
  version : Nat

namespace BoundedQueue

variable {α : Type*} (q : BoundedQueue α) (σ : Side)

/-- `(index + _slot_mask + 1) & ~_slot_mask` on 64-bit words. -/
def nextRound (index : Nat) : Nat :=
  u64 (index + q.slotMask + 1) &&& (18446744073709551615 - q.slotMask)

/-- The indices and lengths of the `deal_n_continuously` calls of `push_n` and `pop_n`. -/
def stretches (index num : Nat) : List (Nat × Nat) :=
  let next := q.nextRound index
  let stop := u64 (index + num)
  if stop ≤ next then [(index, num)]
  else [(index, sub64 next index), (next, sub64 stop next)]

/-- The slots that `deal_n_continuously` works on: neighbours of the first one, with its
version. -/
def accesses (s : Nat × Nat) : List Access :=
  (List.range s.2).map fun i =>
    ⟨u64 (s.1 + i), q.slotIndex s.1 + i, q.expectedVersion σ s.1⟩

/-- All slots that `push_n` or `pop_n` works on, in order. -/
def batch (index num : Nat) : List Access := (q.stretches index num).flatMap (q.accesses σ)

/-- The slots lie in the ring, each ticket is covered once, by its own slot and with its own
version. -/
structure Covers (index num : Nat) : Prop where
  below : ∀ a ∈ q.batch σ index num, a.slot < q.capacity
  tickets : (q.batch σ index num).map Access.ticket = (List.range num).map fun i => u64 (index + i)
  own : ∀ a ∈ q.batch σ index num, a.slot = q.slotIndex a.ticket
  versions : ∀ a ∈ q.batch σ index num, a.version = q.expectedVersion σ a.ticket

/-- The batch ends before the round after the next one, and the sums `index + num` and
`index + _slot_mask + 1` both wrap around or both do not. -/
def SplitsOnce (index num : Nat) : Prop :=
  index % q.capacity + num ≤ 2 * q.capacity ∧
    (index + num < 18446744073709551616 ↔ index + q.capacity < 18446744073709551616)

instance (index num : Nat) : Decidable (q.SplitsOnce index num) :=
  inferInstanceAs (Decidable (_ ∧ _))

/-! ## Rounds of 64-bit words -/

variable {q σ} {index num : Nat}

theorem sub64_eq {x y : Nat} (le : y ≤ x) (word : x < 18446744073709551616) :
    sub64 x y = x - y := by
  unfold sub64 u64
  omega

/-- From a number to the end of the 64-bit words. -/
theorem sub64_zero {y : Nat} (pos : 0 < y) (word : y ≤ 18446744073709551616) :
    sub64 0 y = 18446744073709551616 - y := by
  unfold sub64 u64
  omega

theorem Sized.dvd_words (h : q.Sized) (small : q.slotBits < 64) :
    q.capacity ∣ 18446744073709551616 := by
  rw [h.capacity_eq]
  exact Nat.pow_dvd_pow 2 (show q.slotBits ≤ 64 by omega)

/-- The round of an index is the last one before the words wrap around, or there is another
round behind it. -/
theorem Sized.last_or_before (h : q.Sized) (small : q.slotBits < 64)
    (word : index < 18446744073709551616) :
    index - index % q.capacity + q.capacity = 18446744073709551616 ∧
        18446744073709551616 ≤ index + q.capacity ∨
      index - index % q.capacity + 2 * q.capacity ≤ 18446744073709551616 ∧
        index + q.capacity < 18446744073709551616 := by
  have pos := h.capacity_pos
  obtain ⟨n, words⟩ := h.dvd_words small
  have split := Nat.div_add_mod index q.capacity
  have offset := Nat.mod_lt index pos
  have before : index / q.capacity < n := by
    apply Nat.lt_of_mul_lt_mul_left (a := q.capacity)
    omega
  obtain last | more := Nat.eq_or_lt_of_le (Nat.succ_le_of_lt before)
  · rw [← last, Nat.succ_eq_add_one, Nat.mul_add, Nat.mul_one] at words
    omega
  · have le := Nat.mul_le_mul_left q.capacity (Nat.succ_le_of_lt more)
    simp only [Nat.succ_eq_add_one, Nat.mul_add, Nat.mul_one] at le
    omega

/-- The next round begins at the multiple of the capacity that follows, or at 0 behind the last
round. -/
theorem Sized.nextRound_eq (h : q.Sized) (small : q.slotBits < 64)
    (word : index < 18446744073709551616) :
    q.nextRound index = u64 (index - index % q.capacity + q.capacity) := by
  have pos := h.capacity_pos
  have step : index + q.slotMask + 1 = index + q.capacity := by
    rw [h.mask_eq, h.capacity_eq] at *
    omega
  have mask : 18446744073709551615 - q.slotMask = 2 ^ 64 - 2 ^ q.slotBits := by
    have := h.capacity_eq
    have := h.mask_eq
    omega
  have high := and_high_mask (x := u64 (index + q.capacity)) (Nat.mod_lt _ (by decide)) small
  rw [nextRound, step, mask, high, ← h.capacity_eq]
  have split := Nat.div_add_mod index q.capacity
  have offset := Nat.mod_lt index pos
  obtain ⟨last, wraps⟩ | ⟨more, fits⟩ := h.last_or_before small word
  · have rest : u64 (index + q.capacity) = index % q.capacity := by
      unfold u64
      omega
    rw [rest, Nat.div_eq_of_lt offset, last, Nat.zero_mul]
    rfl
  · rw [u64_of_lt fits, u64_of_lt (by omega), Nat.add_div_right _ pos, Nat.succ_mul, Nat.mul_comm]
    omega

/-! ## One stretch -/

@[simp] theorem tickets_accesses (s : Nat × Nat) :
    (q.accesses σ s).map Access.ticket = (List.range s.2).map fun i => u64 (s.1 + i) := by
  simp [accesses, Function.comp_def]

/-- A stretch that does not leave its round works on the slots of its tickets. -/
theorem Sized.accesses_fit (h : q.Sized) {start n : Nat} (fits : start % q.capacity + n ≤ q.capacity)
    (words : start + n ≤ 18446744073709551616) {a : Access} (ha : a ∈ q.accesses σ (start, n)) :
    a.slot < q.capacity ∧ a.slot = q.slotIndex a.ticket ∧
      a.version = q.expectedVersion σ a.ticket := by
  obtain ⟨i, hi, rfl⟩ := List.mem_map.mp ha
  have hi := List.mem_range.mp hi
  have word : u64 (start + i) = start + i := u64_of_lt (by omega)
  simp only [word, h.slotIndex_eq, h.expectedVersion_eq, (round_add fits hi).1, phase_add σ fits hi]
  exact ⟨by omega, trivial, trivial⟩

/-- A stretch that leaves its round leaves the ring. -/
theorem Sized.accesses_leave (h : q.Sized) {start n : Nat}
    (past : q.capacity < start % q.capacity + n) :
    ∃ a ∈ q.accesses σ (start, n), ¬a.slot < q.capacity := by
  have offset := Nat.mod_lt start h.capacity_pos
  refine ⟨_, List.mem_map_of_mem (a := q.capacity - start % q.capacity)
    (List.mem_range.mpr (by omega)), ?_⟩
  simp only [h.slotIndex_eq]
  omega

/-! ## The whole batch -/

variable (q index num) in
theorem stretches_one (le : u64 (index + num) ≤ q.nextRound index) :
    q.stretches index num = [(index, num)] := if_pos le

variable (q index num) in
theorem stretches_two (lt : q.nextRound index < u64 (index + num)) : q.stretches index num =
    [(index, sub64 (q.nextRound index) index),
      (q.nextRound index, sub64 (u64 (index + num)) (q.nextRound index))] :=
  if_neg (not_le.mpr lt)

/-- One stretch. -/
theorem Sized.covers_one (h : q.Sized) (one : q.stretches index num = [(index, num)])
    (fits : index % q.capacity + num ≤ q.capacity)
    (words : index + num ≤ 18446744073709551616) : q.Covers σ index num := by
  have batch : q.batch σ index num = q.accesses σ (index, num) := by simp [BoundedQueue.batch, one]
  have fit := fun a ha => h.accesses_fit (σ := σ) (a := a) fits words ha
  exact ⟨fun a ha => (fit a (batch ▸ ha)).1, by rw [batch, tickets_accesses],
    fun a ha => (fit a (batch ▸ ha)).2.1, fun a ha => (fit a (batch ▸ ha)).2.2⟩

/-- Two stretches, the second of which begins with a round. -/
theorem Sized.covers_two (h : q.Sized) {next m n : Nat}
    (two : q.stretches index num = [(index, m), (next, n)]) (sum : m + n = num)
    (first : index % q.capacity + m ≤ q.capacity) (words : index + m ≤ 18446744073709551616)
    (begins : next = u64 (index + m)) (round : next % q.capacity = 0) (second : n ≤ q.capacity)
    (words' : next + n ≤ 18446744073709551616) : q.Covers σ index num := by
  have batch : q.batch σ index num = q.accesses σ (index, m) ++ q.accesses σ (next, n) := by
    simp [BoundedQueue.batch, two]
  have fit : ∀ a ∈ q.batch σ index num, a.slot < q.capacity ∧ a.slot = q.slotIndex a.ticket ∧
      a.version = q.expectedVersion σ a.ticket := by
    intro a ha
    rw [batch] at ha
    obtain ha | ha := List.mem_append.mp ha
    · exact h.accesses_fit first words ha
    · exact h.accesses_fit (by omega) words' ha
  refine ⟨fun a ha => (fit a ha).1, ?_, fun a ha => (fit a ha).2.1, fun a ha => (fit a ha).2.2⟩
  rw [batch, List.map_append, tickets_accesses, tickets_accesses, ← sum, List.range_add,
    List.map_append, List.map_map]
  refine congrArg _ (List.map_congr_left fun i _ => ?_)
  simp only [Function.comp_apply, begins, u64]
  omega

/-- A batch with a stretch that leaves its round does not cover its tickets. -/
theorem Sized.not_covers (h : q.Sized) (start n : Nat)
    (mem : (start, n) ∈ q.stretches index num) (past : q.capacity < start % q.capacity + n) :
    ¬q.Covers σ index num := by
  intro covers
  obtain ⟨a, ha, out⟩ := h.accesses_leave (σ := σ) past
  exact out (covers.below a (List.mem_flatMap.mpr ⟨_, mem, ha⟩))

/-- Where the words wrap around behind the last round, the tickets of a batch that does not reach
that far are split at 0, and what is in front of the batch is worked on as well. -/
theorem Sized.not_covers_last (h : q.Sized) (small : q.slotBits < 64)
    (word : index < 18446744073709551616)
    (last : index - index % q.capacity + q.capacity = 18446744073709551616)
    (stays : index + num < 18446744073709551616) : ¬q.Covers σ index num := by
  have moderate : q.capacity < 18446744073709551616 := by
    rw [h.capacity_eq]
    exact Nat.pow_lt_pow_right (by decide) small
  have next : q.nextRound index = 0 := by
    rw [h.nextRound_eq small word, last]
    rfl
  have stop := u64_of_lt stays
  have two := stretches_two q index num (by omega)
  rw [next, stop, sub64_zero (by omega) word.le, sub64_eq (Nat.zero_le _) stays] at two
  intro covers
  have length := congrArg List.length covers.tickets
  simp only [batch, two, List.flatMap_cons, List.flatMap_nil, List.append_nil, List.map_append,
    tickets_accesses, List.length_append, List.length_map, List.length_range] at length
  omega

/-- A batch that wraps around in the last round goes on in the first one, and may fill it. -/
theorem Sized.covers_last_iff (h : q.Sized) (small : q.slotBits < 64)
    (word : index < 18446744073709551616) (words : num < 18446744073709551616)
    (last : index - index % q.capacity + q.capacity = 18446744073709551616)
    (leaves : 18446744073709551616 ≤ index + num) :
    q.Covers σ index num ↔ u64 (index + num) ≤ q.capacity := by
  have offset := Nat.mod_lt index h.capacity_pos
  have le := Nat.mod_le index q.capacity
  have next : q.nextRound index = 0 := by
    rw [h.nextRound_eq small word, last]
    rfl
  have stop : u64 (index + num) = index + num - 18446744073709551616 := by
    unfold u64
    omega
  obtain zero | more := Nat.eq_zero_or_pos (u64 (index + num))
  · have one := stretches_one q index num (by omega)
    exact iff_of_true (h.covers_one one (by omega) (by omega)) (by omega)
  · have two := stretches_two q index num (by omega)
    have tail : u64 (index + num) < 18446744073709551616 := Nat.mod_lt _ (by decide)
    rw [next, sub64_zero (by omega) word.le, sub64_eq (Nat.zero_le _) tail] at two
    by_cases second : u64 (index + num) ≤ q.capacity
    · refine iff_of_true (h.covers_two two (by omega) (by omega) (by omega) ?_
        (Nat.zero_mod _) (by omega) (by omega)) second
      rw [Nat.add_sub_cancel' word.le]
      rfl
    · refine iff_of_false (h.not_covers 0 (u64 (index + num) - 0) ?_ ?_) second
      · rw [two]
        simp
      · rw [Nat.zero_mod]
        omega

/-- In front of the last round the next one begins at a larger index. -/
theorem Sized.nextRound_before (h : q.Sized) (small : q.slotBits < 64)
    (more : index - index % q.capacity + 2 * q.capacity ≤ 18446744073709551616) :
    q.nextRound index = index - index % q.capacity + q.capacity := by
  have pos := h.capacity_pos
  have offset := Nat.mod_lt index pos
  rw [h.nextRound_eq small (by omega), u64_of_lt (by omega)]

/-- A batch that does not wrap around stays in its round and the next one. -/
theorem Sized.covers_before_iff (h : q.Sized) (small : q.slotBits < 64)
    (more : index - index % q.capacity + 2 * q.capacity ≤ 18446744073709551616)
    (stays : index + num < 18446744073709551616) :
    q.Covers σ index num ↔ index % q.capacity + num ≤ 2 * q.capacity := by
  have pos := h.capacity_pos
  have offset := Nat.mod_lt index pos
  have le := Nat.mod_le index q.capacity
  have next := h.nextRound_before small more
  have stop := u64_of_lt stays
  by_cases first : index % q.capacity + num ≤ q.capacity
  · have one := stretches_one q index num (by omega)
    exact iff_of_true (h.covers_one one first stays.le) (by omega)
  · have two := stretches_two q index num (by omega)
    have round : q.nextRound index % q.capacity = 0 := by
      rw [next, Nat.add_mod_right]
      exact Nat.mod_eq_zero_of_dvd (Nat.dvd_sub_mod index)
    rw [stop, sub64_eq (x := q.nextRound index) (by omega) (by omega),
      sub64_eq (by omega) stays] at two
    by_cases second : index % q.capacity + num ≤ 2 * q.capacity
    · refine iff_of_true (h.covers_two two (by omega) (by omega) (by omega) ?_ round (by omega)
        (by omega)) second
      rw [Nat.add_sub_cancel' (by omega), u64_of_lt (by omega)]
    · refine iff_of_false (h.not_covers (q.nextRound index)
        (index + num - q.nextRound index) ?_ (by omega)) second
      rw [two]
      simp

/-- A batch that wraps around from a round in front of the last one is not split. -/
theorem Sized.not_covers_before (h : q.Sized) (small : q.slotBits < 64)
    (words : num < 18446744073709551616)
    (more : index - index % q.capacity + 2 * q.capacity ≤ 18446744073709551616)
    (leaves : 18446744073709551616 ≤ index + num) : ¬q.Covers σ index num := by
  have pos := h.capacity_pos
  have offset := Nat.mod_lt index pos
  have le := Nat.mod_le index q.capacity
  have next := h.nextRound_before small more
  have stop : u64 (index + num) = index + num - 18446744073709551616 := by
    unfold u64
    omega
  have one := stretches_one q index num (by omega)
  refine h.not_covers index num ?_ (by omega)
  rw [one]
  exact List.mem_singleton_self _

/-- `push_n` and `pop_n` stay in the ring and cover their tickets exactly if the batch ends before
the round after the next one, and no sum wraps around unless both do. -/
theorem covers_iff (h : q.Sized) (small : q.slotBits < 64) (σ : Side)
    (word : index < 18446744073709551616) (words : num < 18446744073709551616) :
    q.Covers σ index num ↔ q.SplitsOnce index num := by
  have offset := Nat.mod_lt index h.capacity_pos
  have le := Nat.mod_le index q.capacity
  unfold SplitsOnce
  obtain ⟨last, wraps⟩ | ⟨more, fits⟩ := h.last_or_before small word
  · obtain stays | leaves := lt_or_ge (index + num) 18446744073709551616
    · exact iff_of_false (h.not_covers_last small word last stays) (by omega)
    · rw [h.covers_last_iff small word words last leaves, u64]
      omega
  · obtain stays | leaves := lt_or_ge (index + num) 18446744073709551616
    · rw [h.covers_before_iff small more stays]
      omega
    · exact iff_of_false (h.not_covers_before small words more leaves) (by omega)

/-- A batch that wraps around the end of a ring of four slots. -/
theorem covers_iff_four : (reserveAndClear 0 4).Covers .prod 3 4 :=
  (covers_iff (reserveAndClear_sized 0 4) (by decide +kernel) .prod (by decide) (by decide)).mpr
    (by decide +kernel)

/-- A batch of three in a queue of capacity 1 works on a slot behind the ring. -/
theorem batch_leaves_ring :
    ((reserveAndClear 0 1).batch .prod 0 3).map Access.slot = [0, 0, 1] ∧
      ¬(reserveAndClear 0 1).Covers .prod 0 3 := by
  have slots : ((reserveAndClear 0 1).batch .prod 0 3).map Access.slot = [0, 0, 1] := by
    decide +kernel
  refine ⟨slots, fun covers => ?_⟩
  have mem : 1 ∈ ((reserveAndClear 0 1).batch .prod 0 3).map Access.slot := by simp [slots]
  obtain ⟨a, ha, eq⟩ := List.mem_map.mp mem
  have below := covers.below a ha
  rw [eq] at below
  exact absurd below (by decide)

end BoundedQueue

end Fuxi.Base
