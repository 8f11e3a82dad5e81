import Fuxi.Base.BoundedQueue.Fifo

/-!
# Batches with compensation

A batch with a reverse callback does not wait for the other side. When a slot is not ready
because the queue is empty (full), the batch pushes (pops) an element on its own, one at a
time, and then goes on. Its next index is ahead of the slots that it has dealt with meanwhile.
-/

namespace Fuxi.Base.BoundedQueue

open Lib

variable {α : Type*}

/-- What a batch with compensation leaves: the queue, what the callback has seen and what the
reverse callback has seen. -/
structure Compensated (α : Type*) where
  queue : BoundedQueue α
  seen : List α
  reverse : List α

/-- `need_index`: the tickets before this one can be dealt with. -/
def needIndex (q : BoundedQueue α) : Side → Nat
  | .prod => q.nextPopIndex + q.capacity
  | .cons => q.nextPushIndex

/-- The wait of `deal_n_continuously` for one slot when no other call runs. The reverse
callback has seen some elements already, and pushes `ws 0, ws 1, ..`; there is no result if
the slot stays as it is. -/
def awaitSlot (σ : Side) (slot expected endIndex : Nat) (ws : Nat → α) :
    Nat → BoundedQueue α × List α → Option (BoundedQueue α × List α)
  | 0, _ => none
  | fuel + 1, (q, reverse) =>
    if q.version slot = expected then some (q, reverse)
    else if q.needIndex σ ≤ endIndex then
      let done := q.tryDealN σ.other 1 fun i => ws (reverse.length + i)
      awaitSlot σ slot expected endIndex ws fuel (done.1, reverse ++ done.2)
    else none

/-- `deal_n_continuously` with a reverse callback when no other call runs. The other side can
move `capacity` elements at most before a wait is over. -/
def dealNContinuouslyWith (q : BoundedQueue α) (σ : Side) (index num : Nat) (vs ws : Nat → α)
    (reverse : List α) : Option (Compensated α) :=
  let slot := q.slotIndex index
  let expected := q.expectedVersion σ index
  ((List.range num).foldlM
    (fun p i => awaitSlot σ (slot + i) expected (index + num) ws (q.capacity + 1) p)
    (q, reverse)).map fun p =>
      let done := p.1.dealSlots σ slot expected num vs
      ⟨done.1, done.2, p.2⟩

/-- `push_n` and `pop_n` with a reverse callback when no other call runs. -/
def dealNWith (q : BoundedQueue α) (σ : Side) (num : Nat) (vs ws : Nat → α) :
    Option (Compensated α) :=
  let index := q.nextIndex σ
  let next := q.nextRoundBeginIndex index
  let q' := q.setNextIndex σ (index + num)
  if index + num ≤ next then q'.dealNContinuouslyWith σ index num vs ws []
  else
    (q'.dealNContinuouslyWith σ index (next - index) vs ws []).bind fun first =>
      (first.queue.dealNContinuouslyWith σ next (index + num - next)
        (fun i => vs (next - index + i)) ws first.reverse).map fun second =>
          ⟨second.queue, first.seen ++ second.seen, second.reverse⟩

/-! ## The two ends of the list -/

/-- What a batch lacks is what its first part lacks and what the rest lacks then. -/
theorem missing_add {num m a r r' : Nat} (part : m ≤ num) (lack : m - r = a) (made : r' = r + a) :
    a + (num - m - (r' - m)) = num - r := by
  omega

section List

variable (σ : Side) (c : Nat) (xs : List α) (m k : Nat) (vs ws : Nat → α)

/-- What one side moves makes room for the other one. -/
theorem room_moved_other (h : k ≤ room σ.other c xs) (fits : xs.length ≤ c) :
    room σ c (moved σ.other xs k ws) = room σ c xs + k := by
  cases σ with
  | prod =>
    simp only [room, moved, Side.other, List.length_drop] at *
    omega
  | cons => simp [room, moved, Side.other]

theorem room_add_room_other (fits : xs.length ≤ c) : room σ c xs + room σ.other c xs = c := by
  cases σ <;> simp only [room, Side.other] <;> omega

/-- The two sides do not meet. -/
theorem moved_other_moved (hm : m ≤ room σ c xs) (hk : k ≤ room σ.other c xs) :
    moved σ.other (moved σ xs m vs) k ws = moved σ (moved σ.other xs k ws) m vs := by
  cases σ with
  | prod => exact List.drop_append_of_le_length hk
  | cons => exact (List.drop_append_of_le_length hm).symm

theorem seen_other_moved (hk : k ≤ room σ.other c xs) :
    seen σ.other (moved σ xs m vs) k ws = seen σ.other xs k ws := by
  cases σ with
  | prod => exact List.take_append_of_le_length hk
  | cons => rfl

theorem seen_moved_other (hm : m ≤ room σ c xs) :
    seen σ (moved σ.other xs k ws) m vs = seen σ xs m vs := by
  cases σ with
  | prod => rfl
  | cons => exact List.take_append_of_le_length hm

end List

section Fields

variable (q : BoundedQueue α) (σ : Side) (next : Nat)

/-- One element moved by the other side: this side's next index plays no part. -/
theorem tryDealN_other_setNextIndex (h : q.Sized) (ws : Nat → α) :
    (q.setNextIndex σ next).tryDealN σ.other 1 ws =
      ((q.tryDealN σ.other 1 ws).1.setNextIndex σ next, (q.tryDealN σ.other 1 ws).2) ∧
    (q.tryDealN σ.other 1 ws).1.nextIndex σ = q.nextIndex σ := by
  rw [tryDealN_one _ σ.other (h.setNextIndex σ next), tryDealN_one q σ.other h]
  have same : (q.setNextIndex σ next).expectedVersion σ.other (q.nextIndex σ.other) =
      q.expectedVersion σ.other (q.nextIndex σ.other) ∧
      (q.setNextIndex σ next).slotIndex (q.nextIndex σ.other) =
        q.slotIndex (q.nextIndex σ.other) := by cases σ <;> exact ⟨rfl, rfl⟩
  simp only [nextIndex_setNextIndex_other, same, setNextIndex_version]
  split_ifs with ready
  · cases σ <;> exact ⟨rfl, rfl⟩
  · exact ⟨rfl, rfl⟩

end Fields

namespace Holds

variable {q : BoundedQueue α} {xs : List α} (h : q.Holds xs)
include h

/-- The tickets that can be dealt with are those for which there is room. -/
theorem needIndex_eq (σ : Side) : q.needIndex σ = q.nextIndex σ + room σ q.capacity xs := by
  have next := h.next
  have fits := h.fits
  cases σ <;> simp only [needIndex, nextIndex, room] <;> omega

/-- The wait for a slot after those that are ready: the other side moves one element. -/
theorem awaitSlot (σ : Side) (next : Nat) (ws : Nat → α) (reverse : List α) {i num : Nat} (fuel : Nat)
    (hi : i < num) (fits : q.nextIndex σ % q.capacity + num ≤ q.capacity)
    (before : i ≤ room σ q.capacity xs) :
    let k := i + 1 - room σ q.capacity xs
    let ws' := fun j => ws (reverse.length + j)
    ∃ q' : BoundedQueue α, BoundedQueue.awaitSlot σ (q.slotIndex (q.nextIndex σ) + i)
        (q.expectedVersion σ (q.nextIndex σ)) (q.nextIndex σ + num) ws (fuel + 2)
        (q.setNextIndex σ next, reverse) =
          some (q'.setNextIndex σ next, reverse ++ seen σ.other xs k ws') ∧
      q'.Holds (moved σ.other xs k ws') ∧ q'.nextIndex σ = q.nextIndex σ ∧
        q'.capacity = q.capacity := by
  intro k ws'
  have ready := h.round_ready_iff σ (i := i) (by omega)
  by_cases now : i < room σ q.capacity xs
  · have none : k = 0 := by omega
    rw [none, moved_zero, seen_zero, List.append_nil]
    refine ⟨q, ?_, h, rfl, rfl⟩
    rw [BoundedQueue.awaitSlot, setNextIndex_version, if_pos (ready.mpr now)]
  · have all := room_add_room_other σ q.capacity xs h.fits
    have one : k = 1 := by omega
    obtain ⟨q', ret, cap, holds⟩ := h.tryDealN σ.other ws' 1
    rw [min_eq_left (by omega)] at ret holds
    obtain ⟨same, index⟩ := q.tryDealN_other_setNextIndex σ next h.sized ws'
    rw [ret] at same index
    have need : (q.setNextIndex σ next).needIndex σ = q.needIndex σ := by cases σ <;> rfl
    have near : q.needIndex σ ≤ q.nextIndex σ + num := by
      rw [h.needIndex_eq]
      omega
    rw [one]
    refine ⟨q', ?_, holds, index, cap⟩
    rw [BoundedQueue.awaitSlot, setNextIndex_version, if_neg (ready.not.mpr now), need, if_pos near]
    simp only [show (fun i => ws (reverse.length + i)) = ws' from rfl, same]
    -- now the slot is ready
    have room' := room_moved_other σ q.capacity xs 1 ws' (by omega) h.fits
    have ready' := holds.round_ready_iff σ (i := i) (by rw [index, cap]; omega)
    rw [index, cap, holds.sized.slotIndex_eq, holds.sized.expectedVersion_eq, cap,
      ← h.sized.slotIndex_eq, ← h.sized.expectedVersion_eq] at ready'
    rw [BoundedQueue.awaitSlot, setNextIndex_version, if_pos (ready'.mpr (by omega))]

/-- The waits for the first slots of a batch. -/
theorem awaitSlots (σ : Side) (next : Nat) (ws : Nat → α) (reverse : List α) {num : Nat}
    (fuel : Nat) (fits : q.nextIndex σ % q.capacity + num ≤ q.capacity) {m : Nat} (hm : m ≤ num) :
    let k := m - room σ q.capacity xs
    let ws' := fun j => ws (reverse.length + j)
    ∃ q' : BoundedQueue α, (List.range m).foldlM
        (fun p i => BoundedQueue.awaitSlot σ (q.slotIndex (q.nextIndex σ) + i)
          (q.expectedVersion σ (q.nextIndex σ)) (q.nextIndex σ + num) ws (fuel + 2) p)
        (q.setNextIndex σ next, reverse) =
          some (q'.setNextIndex σ next, reverse ++ seen σ.other xs k ws') ∧
      q'.Holds (moved σ.other xs k ws') ∧ q'.nextIndex σ = q.nextIndex σ ∧
        q'.capacity = q.capacity := by
  intro k ws'
  induction m with
  | zero => exact ⟨q, by simp [k], by simpa [k] using h, rfl, rfl⟩
  | succ m ih =>
    obtain ⟨q₁, ret, holds, index, cap⟩ := ih (by omega)
    have all := room_add_room_other σ q.capacity xs h.fits
    have room' := room_moved_other σ q.capacity xs (m - room σ q.capacity xs) ws' (by omega) h.fits
    have one := holds.awaitSlot σ next ws (reverse ++ seen σ.other xs (m - room σ q.capacity xs) ws')
      fuel hm (by rw [index, cap]; exact fits)
      (by rw [cap]; omega)
    rw [index, cap, holds.sized.slotIndex_eq, holds.sized.expectedVersion_eq, cap,
      ← h.sized.slotIndex_eq, ← h.sized.expectedVersion_eq] at one
    obtain ⟨q₂, ret', holds', index', cap'⟩ := one
    have sum : m - room σ q.capacity xs +
        (m + 1 - room σ q.capacity (moved σ.other xs (m - room σ q.capacity xs) ws')) = k := by
      omega
    have length := length_seen σ.other q.capacity xs (m - room σ q.capacity xs) ws' (by omega)
    simp only [List.length_append, length, Nat.add_assoc] at ret' holds'
    rw [moved_add σ.other xs _ _ ws', sum] at holds'
    refine ⟨q₂, ?_, holds', index', cap'⟩
    rw [List.range_succ, List.foldlM_append, ret, Option.bind_eq_bind, Option.bind_some,
      List.foldlM_cons, ret', List.append_assoc, seen_add σ.other xs _ _ ws', sum]
    rfl

/-- `deal_n_continuously` with a reverse callback: the other side moves what is missing. -/
theorem dealNContinuouslyWith (σ : Side) (next : Nat) (vs ws : Nat → α) (reverse : List α)
    (num : Nat) (fits : q.nextIndex σ % q.capacity + num ≤ q.capacity) :
    let k := num - room σ q.capacity xs
    let xs' := moved σ.other xs k fun j => ws (reverse.length + j)
    ∃ q' : BoundedQueue α,
      (q.setNextIndex σ next).dealNContinuouslyWith σ (q.nextIndex σ) num vs ws reverse =
        some ⟨q', seen σ xs' num vs,
          reverse ++ seen σ.other xs k fun j => ws (reverse.length + j)⟩ ∧
      (q'.setNextIndex σ (q.nextIndex σ + num)).Holds (moved σ xs' num vs) ∧
      q'.nextIndex σ = next ∧ q'.capacity = q.capacity := by
  intro k xs'
  have pos := h.sized.capacity_pos
  have same : (q.setNextIndex σ next).slotIndex (q.nextIndex σ) = q.slotIndex (q.nextIndex σ) ∧
      (q.setNextIndex σ next).expectedVersion σ (q.nextIndex σ) =
        q.expectedVersion σ (q.nextIndex σ) := by cases σ <;> exact ⟨rfl, rfl⟩
  obtain ⟨q₁, ret, holds, index, cap⟩ :=
    h.awaitSlots σ next ws reverse (q.capacity - 1) fits le_rfl
  have all := room_add_room_other σ q.capacity xs h.fits
  have room' := room_moved_other σ q.capacity xs k (fun j => ws (reverse.length + j))
    (by omega) h.fits
  have enough : num ≤ room σ q.capacity xs + k := by omega
  rw [← room', ← cap] at enough
  have dealt := holds.dealSlots σ next vs enough (by rw [index, cap]; exact fits)
  rw [index, cap, holds.sized.slotIndex_eq, holds.sized.expectedVersion_eq, cap,
    ← h.sized.slotIndex_eq, ← h.sized.expectedVersion_eq] at dealt
  obtain ⟨holds', index', cap', out⟩ := dealt
  have fuel : q.capacity - 1 + 2 = q.capacity + 1 := by omega
  rw [fuel] at ret
  refine ⟨_, ?_, holds', index', cap'⟩
  simp only [BoundedQueue.dealNContinuouslyWith, same, setNextIndex_capacity, ret, Option.map_some,
    out]
  rfl

/-- `push_n` and `pop_n` with a reverse callback always return: the other side moves the elements
that are missing, and then this side moves all of its own. -/
theorem dealNWith (σ : Side) (vs ws : Nat → α) {num : Nat} (few : num ≤ q.capacity) :
    let k := num - room σ q.capacity xs
    let xs' := moved σ.other xs k ws
    ∃ q' : BoundedQueue α,
      q.dealNWith σ num vs ws = some ⟨q', seen σ xs' num vs, seen σ.other xs k ws⟩ ∧
      q'.Holds (moved σ xs' num vs) ∧ q'.capacity = q.capacity := by
  intro k xs'
  have all := room_add_room_other σ q.capacity xs h.fits
  obtain ⟨m, pos, le, fits, next, wrap⟩ := h.round σ
  simp only [BoundedQueue.dealNWith, next, Nat.add_le_add_iff_left]
  by_cases one : num ≤ m
  · obtain ⟨q', ret, holds, index, cap⟩ :=
      h.dealNContinuouslyWith σ (q.nextIndex σ + num) vs ws [] num (by omega)
    rw [if_pos one]
    rw [setNextIndex_eq _ _ _ index] at holds
    simp only [List.length_nil, Nat.zero_add, List.nil_append] at ret holds
    exact ⟨q', ret, holds, cap⟩
  · obtain ⟨q₁, ret, holds, index, cap⟩ :=
      h.dealNContinuouslyWith σ (q.nextIndex σ + num) vs ws [] m fits.le
    rw [if_neg one, Nat.add_sub_cancel_left, Nat.add_sub_add_left, ret]
    simp only [List.length_nil, Nat.zero_add, List.nil_append] at holds ⊢
    have second := holds.dealNContinuouslyWith σ (q.nextIndex σ + num) (fun i => vs (m + i)) ws
      (seen σ.other xs (m - room σ q.capacity xs) ws) (num - m)
    simp only [nextIndex_setNextIndex, setNextIndex_capacity, cap, wrap, setNextIndex_setNextIndex,
      setNextIndex_eq _ _ _ index, room_moved] at second
    obtain ⟨q₂, ret', holds', index', cap'⟩ := second (by omega)
    have fewer : m - room σ q.capacity xs ≤ room σ.other q.capacity xs := by omega
    have length := length_seen σ.other q.capacity xs _ ws fewer
    have room₁ := room_moved_other σ q.capacity xs _ ws fewer h.fits
    have room₂ := room_moved σ.other q.capacity xs (m - room σ q.capacity xs) ws
    rw [length] at ret' holds'
    generalize ha : m - room σ q.capacity xs = a at *
    -- what the two parts do to the list is what they do in one
    have ahead : m ≤ room σ q.capacity (moved σ.other xs a ws) := by omega
    have behind : num - m - (room σ q.capacity (moved σ.other xs a ws) - m) ≤
        room σ.other q.capacity (moved σ.other xs a ws) := by omega
    have sum : a + (num - m - (room σ q.capacity (moved σ.other xs a ws) - m)) = k :=
      missing_add (not_le.mp one).le ha room₁
    have swapped := moved_other_moved σ q.capacity _ m _ vs (fun j => ws (a + j)) ahead behind
    rw [moved_add σ.other xs _ _ ws, sum] at swapped
    rw [swapped, moved_add] at holds'
    rw [swapped, seen_other_moved σ q.capacity _ m _ vs _ behind, seen_add σ.other xs _ _ ws, sum]
      at ret'
    have front := seen_moved_other σ q.capacity _ m
      (num - m - (room σ q.capacity (moved σ.other xs a ws) - m)) vs (fun j => ws (a + j)) ahead
    rw [moved_add σ.other xs _ _ ws, sum] at front
    have whole : m + (num - m) = num := by omega
    have total : q.nextIndex σ + m + (num - m) = q.nextIndex σ + num := by omega
    rw [whole, total, setNextIndex_eq _ _ _ index'] at holds'
    refine ⟨q₂, ?_, holds', cap'⟩
    simp only [Option.bind_some, ret', Option.map_some, ← front]
    rw [seen_add, whole]

end Holds

end Fuxi.Base.BoundedQueue
