import Fuxi.Base.BoundedQueue.Sequential
import Fuxi.Lib.Device
import Fuxi.Lib.Fifo

/-!
# `ConcurrentBoundedQueue` is a bounded queue

One thread calls single and batch operations. A batch visits the slots of its tickets from the
next one on, in at most two runs of neighbouring slots, and goes as far as their versions
allow. This is as far as the elements reach, or the room between them and the capacity.
-/

namespace Fuxi.Base

open Lib

namespace BoundedQueue

variable {α : Type*}

/-! ## The remaining operations -/

/-- The last step of `deal` and `try_deal`, with `USE_FUTEX_WAKE` or without it. -/
def advanceVersion (q : BoundedQueue α) (wake : Bool) (slot version : Nat) : BoundedQueue α :=
  if wake then q.exchangeVersion slot version else q.setVersion slot version

/-- `deal` of the next ticket when no other call runs, or `none` if it waits. -/
def deal (q : BoundedQueue α) (wake : Bool) (σ : Side) (v : α) : Option (BoundedQueue α × α) :=
  let index := q.nextIndex σ
  let slot := q.slotIndex index
  let expected := q.expectedVersion σ index
  let q' := q.setNextIndex σ (index + 1)
  if q'.version slot = expected then
    let done := q'.callback σ slot v
    some (done.1.advanceVersion wake slot (expected + 1), done.2)
  else none

/-- `try_deal` when no other call runs. -/
def tryDealWake (q : BoundedQueue α) (wake : Bool) (σ : Side) (v : α) :
    Option (BoundedQueue α × α) :=
  let index := q.nextIndex σ
  let slot := q.slotIndex index
  let expected := q.expectedVersion σ index
  if expected ≠ q.version slot then none
  else
    let done := (q.setNextIndex σ (index + 1)).callback σ slot v
    some (done.1.advanceVersion wake slot (expected + 1), done.2)

/-- The callback and the new versions of a batch, on `num` slots from `slot` on. -/
def dealSlots (q : BoundedQueue α) (σ : Side) (slot expected num : Nat) (vs : Nat → α) :
    BoundedQueue α × List α :=
  (List.range num).foldl
    (fun p i =>
      let done := p.1.callback σ (slot + i) (vs i)
      (done.1.setVersion (slot + i) (expected + 1), p.2 ++ [done.2]))
    (q, [])

/-- `deal_n_continuously` when no other call runs, or `none` if it waits for a slot. -/
def dealNContinuously (q : BoundedQueue α) (σ : Side) (index num : Nat) (vs : Nat → α) :
    Option (BoundedQueue α × List α) :=
  if ∀ i < num, q.version (q.slotIndex index + i) = q.expectedVersion σ index then
    some (q.dealSlots σ (q.slotIndex index) (q.expectedVersion σ index) num vs)
  else none

/-- `push_n` and `pop_n` when no other call runs. -/
def dealN (q : BoundedQueue α) (σ : Side) (num : Nat) (vs : Nat → α) :
    Option (BoundedQueue α × List α) :=
  let index := q.nextIndex σ
  let next := q.nextRoundBeginIndex index
  let q' := q.setNextIndex σ (index + num)
  if index + num ≤ next then q'.dealNContinuously σ index num vs
  else
    (q'.dealNContinuously σ index (next - index) vs).bind fun first =>
      (first.1.dealNContinuously σ next (index + num - next)
        fun i => vs (next - index + i)).map fun second => (second.1, first.2 ++ second.2)

/-- `size`. -/
def size (q : BoundedQueue α) : Nat :=
  if q.nextPushIndex > q.nextPopIndex then q.nextPushIndex - q.nextPopIndex else 0

/-- `clear`; what the slots hold is left there. -/
def clear (q : BoundedQueue α) : BoundedQueue α := (q.tryDealN .cons q.capacity q.value).1

end BoundedQueue

/-- The calls. A batch of pushes assigns `vs 0`, `vs 1` and so on. -/
inductive QueueCall (α : Type*)
  | push (wake : Bool) (v : α)
  | pop (wake : Bool)
  | tryPush (wake : Bool) (v : α)
  | tryPop (wake : Bool)
  | pushN (vs : Nat → α) (num : Nat)
  | popN (num : Nat)
  | tryPushN (vs : Nat → α) (num : Nat)
  | tryPopN (num : Nat)
  | clear
  | size

/-- The elements that a call has moved into the queue or out of it, or what it returns. -/
inductive QueueAnswer (α : Type*)
  | moved (xs : List α)
  | failed
  | cleared
  | size (n : Nat)

/-- The answer of a single operation that fails instead of waiting. -/
def QueueAnswer.single {σ α : Type*} (s : σ) : Option (σ × α) → σ × QueueAnswer α
  | some (t, x) => (t, .moved [x])
  | none => (s, .failed)

namespace BoundedQueue

/-- The calls to the queue; a pop has no value to assign. -/
def device (α : Type*) : Device (BoundedQueue α) (QueueCall α) (QueueAnswer α) where
  call q
    | .push wake v => (q.deal wake .prod v).map fun r => (r.1, .moved [r.2])
    | .pop wake => (q.deal wake .cons (q.value 0)).map fun r => (r.1, .moved [r.2])
    | .tryPush wake v => some (QueueAnswer.single q (q.tryDealWake wake .prod v))
    | .tryPop wake => some (QueueAnswer.single q (q.tryDealWake wake .cons (q.value 0)))
    | .pushN vs num => (q.dealN .prod num vs).map fun r => (r.1, .moved r.2)
    | .popN num => (q.dealN .cons num q.value).map fun r => (r.1, .moved r.2)
    | .tryPushN vs num => some ((q.tryDealN .prod num vs).1, .moved (q.tryDealN .prod num vs).2)
    | .tryPopN num =>
      some ((q.tryDealN .cons num q.value).1, .moved (q.tryDealN .cons num q.value).2)
    | .clear => some (q.clear, .cleared)
    | .size => some (q, .size q.size)

end BoundedQueue

namespace QueueCall

/-- The elements of a batch of pushes. -/
def elements {α : Type*} (vs : Nat → α) (num : Nat) : List α := (List.range num).map vs

/-- The same calls to a queue of elements. An operation that would have to wait does not
return. -/
def queue (α : Type*) (capacity : Nat) :
    Device (Fifo α capacity) (QueueCall α) (QueueAnswer α) where
  call q
    | .push _ v => if 1 ≤ q.free then some (q.accept [v], .moved [v]) else none
    | .pop _ =>
      if 1 ≤ q.items.length then some (q.drop 1, .moved (q.items.take 1)) else none
    | .tryPush _ v =>
      if 1 ≤ q.free then some (q.accept [v], .moved [v]) else some (q, .failed)
    | .tryPop _ =>
      if 1 ≤ q.items.length then some (q.drop 1, .moved (q.items.take 1)) else some (q, .failed)
    | .pushN vs num =>
      if num ≤ q.free then some (q.accept (elements vs num), .moved (elements vs num)) else none
    | .popN num =>
      if num ≤ q.items.length then some (q.drop num, .moved (q.items.take num)) else none
    | .tryPushN vs num =>
      let xs := elements vs (min num q.free)
      some (q.accept xs, .moved xs)
    | .tryPopN num =>
      let n := min num q.items.length
      some (q.drop n, .moved (q.items.take n))
    | .clear => some (.empty .., .cleared)
    | .size => some (q, .size q.items.length)

end QueueCall

namespace BoundedQueue

variable {α : Type*}

/-! ## Both ends of a list -/

/-- How many elements one side can move. -/
def room (σ : Side) (c : Nat) (xs : List α) : Nat :=
  match σ with
  | .prod => c - xs.length
  | .cons => xs.length

/-- The elements after one side has moved `n` of them. -/
def moved (σ : Side) (xs : List α) (n : Nat) (vs : Nat → α) : List α :=
  match σ with
  | .prod => xs ++ (List.range n).map vs
  | .cons => xs.drop n

/-- The elements that have been moved. -/
def seen (σ : Side) (xs : List α) (n : Nat) (vs : Nat → α) : List α :=
  match σ with
  | .prod => (List.range n).map vs
  | .cons => xs.take n

/-- How far a predicate reaches on the first numbers. -/
theorem length_takeWhile_range {p : Nat → Bool} {num n : Nat} (le : n ≤ num)
    (all : ∀ i < n, p i = true) (stop : n = num ∨ p n = false) :
    ((List.range num).takeWhile p).length = n := by
  obtain ⟨k, rfl⟩ := Nat.le.dest le
  rw [List.range_add, List.takeWhile_append_of_pos fun i hi => all i (List.mem_range.mp hi),
    List.length_append, List.length_range, Nat.add_eq_left, List.length_eq_zero_iff]
  cases k with
  | zero => rfl
  | succ k =>
    have last := stop.resolve_left (by omega)
    simp [List.range_succ_eq_map, last]

section List

variable (σ : Side) (c : Nat) (xs : List α) (m n : Nat) (vs : Nat → α)

@[simp] theorem moved_zero : moved σ xs 0 vs = xs := by cases σ <;> simp [moved]

@[simp] theorem seen_zero : seen σ xs 0 vs = [] := by cases σ <;> simp [seen]

theorem moved_add : moved σ (moved σ xs m vs) n (fun i => vs (m + i)) = moved σ xs (m + n) vs := by
  cases σ <;> simp [moved, List.range_add, Function.comp_def]

theorem seen_add : seen σ xs m vs ++ seen σ (moved σ xs m vs) n (fun i => vs (m + i)) =
    seen σ xs (m + n) vs := by
  cases σ <;> simp [seen, moved, List.range_add, Function.comp_def, List.take_add]

theorem room_moved : room σ c (moved σ xs n vs) = room σ c xs - n := by
  cases σ <;> simp [room, moved]
  omega

theorem length_seen (h : n ≤ room σ c xs) : (seen σ xs n vs).length = n := by
  cases σ <;> simp [seen]
  exact h

end List

/-! ## Slots that are ready -/

section Fields

variable (q : BoundedQueue α) (σ τ : Side) (slot index j : Nat) (v : α) (b : Bool)

@[simp] theorem callback_nextIndex : (q.callback σ slot v).1.nextIndex τ = q.nextIndex τ := by
  cases σ <;> cases τ <;> rfl

@[simp] theorem callback_version (t : Nat) :
    (q.callback σ slot v).1.version t = q.version t := by cases σ <;> rfl

theorem version_advanceVersion (t : Nat) : (q.advanceVersion b slot j).version t =
    if t = slot then u16 j else q.version t := by
  cases b
  · exact version_setVersion ..
  · exact version_exchangeVersion ..

theorem callback_setNextIndex : (q.setNextIndex τ index).callback σ slot v =
    ((q.callback σ slot v).1.setNextIndex τ index, (q.callback σ slot v).2) := by
  cases σ <;> cases τ <;> rfl

@[simp] theorem setNextIndex_setNextIndex :
    (q.setNextIndex σ j).setNextIndex σ index = q.setNextIndex σ index := by cases σ <;> rfl

@[simp] theorem setNextIndex_nextIndex : q.setNextIndex σ (q.nextIndex σ) = q := by
  cases σ <;> rfl

@[simp] theorem nextIndex_setNextIndex : (q.setNextIndex σ index).nextIndex σ = index := by
  cases σ <;> rfl

@[simp] theorem nextIndex_setNextIndex_other :
    (q.setNextIndex σ index).nextIndex σ.other = q.nextIndex σ.other := by cases σ <;> rfl

theorem setNextIndex_eq (h : q.nextIndex σ = index) : q.setNextIndex σ index = q :=
  h ▸ q.setNextIndex_nextIndex σ

/-- What does not wait and what does not fail do the same. -/
theorem tryDealWake_eq_deal : q.tryDealWake b σ v = q.deal b σ v := by
  simp only [tryDealWake, deal, setNextIndex_version, ne_eq, ite_not, eq_comm]

/-- The last slot of a batch comes after the others. -/
theorem dealSlots_succ (expected n : Nat) (vs : Nat → α) :
    q.dealSlots σ slot expected (n + 1) vs =
      let r := q.dealSlots σ slot expected n vs
      let done := r.1.callback σ (slot + n) (vs n)
      (done.1.setVersion (slot + n) (expected + 1), r.2 ++ [done.2]) := by
  simp only [dealSlots, List.range_succ, List.foldl_append, List.foldl_cons, List.foldl_nil]

end Fields

namespace Holds

variable {q p : BoundedQueue α} {xs : List α} (h : q.Holds xs)
include h

theorem room_le (σ : Side) : room σ q.capacity xs ≤ q.capacity := by
  have := h.fits
  cases σ <;> simp only [room] <;> omega

/-- The slots of the next tickets are ready as far as the elements, or the room, reach. -/
theorem ready_iff (σ : Side) {i : Nat} (hi : i < q.capacity) :
    q.version (q.slotIndex (q.nextIndex σ + i)) = q.expectedVersion σ (q.nextIndex σ + i) ↔
      i < room σ q.capacity xs := by
  have fits := h.fits
  have pos := h.sized.capacity_pos
  rw [h.sized.expectedVersion_eq, h.sized.slotIndex_eq]
  cases σ with
  | prod =>
    have index : q.nextIndex .prod + i = q.nextPopIndex + (xs.length + i) := by
      rw [← Nat.add_assoc, ← h.next]
      rfl
    simp only [phase, room, index]
    by_cases free : xs.length + i < q.capacity
    · simp only [h.free _ (Nat.le_add_right ..) free, true_iff]
      omega
    · -- the slot still waits for the pop of the epoch before
      obtain ⟨j, hj⟩ := Nat.le.dest (not_lt.mp free)
      have wrap : q.nextPopIndex + (xs.length + i) = q.nextPopIndex + j + q.capacity := by omega
      rw [wrap, Nat.add_mod_right, Nat.add_div_right _ pos, h.full j (by omega)]
      unfold u16
      omega
  | cons =>
    have index : q.nextIndex .cons + i = q.nextPopIndex + i := rfl
    simp only [phase, room, index]
    by_cases full : i < xs.length
    · simp only [h.full i full, full]
    · rw [h.free i (not_lt.mp full) hi]
      unfold u16
      omega

/-- The same for tickets of one round, whose slots and versions the code derives from the first
one. -/
theorem round_ready_iff (σ : Side) {i : Nat} (fits : q.nextIndex σ % q.capacity + i < q.capacity) :
    q.version (q.slotIndex (q.nextIndex σ) + i) = q.expectedVersion σ (q.nextIndex σ) ↔
      i < room σ q.capacity xs := by
  rw [← h.ready_iff σ (by omega), h.sized.slotIndex_eq, h.sized.slotIndex_eq,
    h.sized.expectedVersion_eq, h.sized.expectedVersion_eq, (round_add fits (Nat.lt_succ_self i)).1,
    phase_add σ fits (Nat.lt_succ_self i)]

/-- One side moves one element, whichever way it sets the version. -/
theorem move (σ : Side) (vs : Nat → α) (some : 0 < room σ q.capacity xs)
    (sizes : p.capacity = q.capacity ∧ p.slotMask = q.slotMask ∧ p.slotBits = q.slotBits)
    (next : p.nextIndex σ = q.nextIndex σ + 1)
    (other : p.nextIndex σ.other = q.nextIndex σ.other)
    (value : p.value = (q.callback σ (q.slotIndex (q.nextIndex σ)) (vs 0)).1.value)
    (version : ∀ t, p.version t = if t = q.slotIndex (q.nextIndex σ) then
      u16 (q.expectedVersion σ (q.nextIndex σ) + 1) else q.version t) :
    p.Holds (moved σ xs 1 vs) ∧
      [(q.callback σ (q.slotIndex (q.nextIndex σ)) (vs 0)).2] = seen σ xs 1 vs := by
  cases σ with
  | prod =>
    have free : xs.length < q.capacity := by
      simp only [room] at some
      omega
    exact ⟨h.push (vs 0) free sizes other next value version, rfl⟩
  | cons =>
    cases xs with
    | nil => exact absurd some (by simp [room])
    | cons x xs =>
      obtain ⟨holds, first⟩ := h.pop sizes next other value version
      exact ⟨holds, congrArg (fun y => [y]) first⟩

/-! ### Single operations -/

/-- `push`, `pop`, `try_push` and `try_pop` of a ticket whose slot is ready. -/
theorem advance (wake : Bool) (σ : Side) (v : α) (some : 0 < room σ q.capacity xs) :
    let slot := q.slotIndex (q.nextIndex σ)
    let done := (q.setNextIndex σ (q.nextIndex σ + 1)).callback σ slot v
    let q' := done.1.advanceVersion wake slot (q.expectedVersion σ (q.nextIndex σ) + 1)
    q'.capacity = q.capacity ∧ q'.Holds (moved σ xs 1 fun _ => v) ∧
      [done.2] = seen σ xs 1 fun _ => v := by
  intro slot done q'
  have same : done.2 = (q.callback σ slot v).2 := by
    simp only [done, callback_setNextIndex]
  rw [same]
  refine ⟨by cases σ <;> cases wake <;> rfl, ?_⟩
  apply h.move σ (fun _ => v) some
  · cases σ <;> cases wake <;> exact ⟨rfl, rfl, rfl⟩
  · cases σ <;> cases wake <;> rfl
  · cases σ <;> cases wake <;> rfl
  · cases σ <;> cases wake <;> rfl
  · intro t
    simp only [q', version_advanceVersion, done, callback_version, setNextIndex_version, slot]

theorem deal (wake : Bool) (σ : Side) (v : α) :
    if 0 < room σ q.capacity xs then
      ∃ q' x, q.deal wake σ v = some (q', x) ∧ q'.capacity = q.capacity ∧
        q'.Holds (moved σ xs 1 fun _ => v) ∧ [x] = seen σ xs 1 fun _ => v
    else q.deal wake σ v = none := by
  have ready := h.ready_iff σ h.sized.capacity_pos
  rw [Nat.add_zero] at ready
  simp only [BoundedQueue.deal, setNextIndex_version, ready]
  split_ifs with some
  · exact ⟨_, _, rfl, h.advance wake σ v some⟩
  · rfl

/-! ### Batches -/

/-- A batch of neighbouring slots that are ready. Its next index has been set before. -/
theorem dealSlots (σ : Side) (next : Nat) (vs : Nat → α) {num : Nat}
    (few : num ≤ room σ q.capacity xs) (fits : q.nextIndex σ % q.capacity + num ≤ q.capacity) :
    let r := (q.setNextIndex σ next).dealSlots σ (q.slotIndex (q.nextIndex σ))
      (q.expectedVersion σ (q.nextIndex σ)) num vs
    (r.1.setNextIndex σ (q.nextIndex σ + num)).Holds (moved σ xs num vs) ∧
      r.1.nextIndex σ = next ∧ r.1.capacity = q.capacity ∧ r.2 = seen σ xs num vs := by
  induction num with
  | zero =>
    refine ⟨?_, nextIndex_setNextIndex .., setNextIndex_capacity .., ?_⟩
    · simpa [BoundedQueue.dealSlots] using h
    · simp [BoundedQueue.dealSlots]
  | succ n ih =>
    obtain ⟨holds, index, cap, old⟩ := ih (by omega) (by omega)
    rw [dealSlots_succ]
    generalize (q.setNextIndex σ next).dealSlots σ (q.slotIndex (q.nextIndex σ))
      (q.expectedVersion σ (q.nextIndex σ)) n vs = r at *
    obtain ⟨r, xs'⟩ := r
    simp only at holds index cap old ⊢
    have fit : q.nextIndex σ % q.capacity + (n + 1) ≤ q.capacity := fits
    have cap' : (r.setNextIndex σ (q.nextIndex σ + n)).capacity = q.capacity := by simp [cap]
    have slot : (r.setNextIndex σ (q.nextIndex σ + n)).slotIndex (q.nextIndex σ + n) =
        q.slotIndex (q.nextIndex σ) + n := by
      rw [holds.sized.slotIndex_eq, h.sized.slotIndex_eq, cap', (round_add fit (by omega)).1]
    have version : (r.setNextIndex σ (q.nextIndex σ + n)).expectedVersion σ
        (q.nextIndex σ + n) = q.expectedVersion σ (q.nextIndex σ) := by
      rw [holds.sized.expectedVersion_eq, h.sized.expectedVersion_eq, cap',
        phase_add σ fit (by omega)]
    have next := holds.move σ (fun i => vs (n + i))
      (p := ((r.callback σ (q.slotIndex (q.nextIndex σ) + n) (vs n)).1.setVersion
        (q.slotIndex (q.nextIndex σ) + n) (q.expectedVersion σ (q.nextIndex σ) + 1)).setNextIndex
          σ (q.nextIndex σ + (n + 1)))
    simp only [nextIndex_setNextIndex, slot, version, callback_setNextIndex, cap', room_moved,
      Nat.add_zero, moved_add] at next
    obtain ⟨holds', one⟩ := next (by omega) (by cases σ <;> exact ⟨cap, rfl, rfl⟩) (by omega)
      (by cases σ <;> rfl) (by cases σ <;> rfl) (fun t => by
        simp only [setNextIndex_version, version_setVersion, callback_version])
    refine ⟨holds', ?_, ?_, ?_⟩
    · rw [← index]
      cases σ <;> rfl
    · rw [← cap]
      cases σ <;> rfl
    · rw [old, ← seen_add, ← one]

/-- `deal_n_continuously` of a ticket range that ends in time, or that does not end before
the slots that are ready do. -/
theorem dealNContinuously (σ : Side) (next : Nat) (vs : Nat → α) (num : Nat)
    (fits : q.nextIndex σ % q.capacity + min num (room σ q.capacity xs) ≤ q.capacity)
    (stop : num ≤ room σ q.capacity xs ∨
      q.nextIndex σ % q.capacity + room σ q.capacity xs < q.capacity) :
    if num ≤ room σ q.capacity xs then
      ∃ q', (q.setNextIndex σ next).dealNContinuously σ (q.nextIndex σ) num vs =
          some (q', seen σ xs num vs) ∧ (q'.setNextIndex σ (q.nextIndex σ + num)).Holds
            (moved σ xs num vs) ∧ q'.nextIndex σ = next ∧ q'.capacity = q.capacity
    else (q.setNextIndex σ next).dealNContinuously σ (q.nextIndex σ) num vs = none := by
  have same : (q.setNextIndex σ next).slotIndex (q.nextIndex σ) = q.slotIndex (q.nextIndex σ) ∧
      (q.setNextIndex σ next).expectedVersion σ (q.nextIndex σ) =
        q.expectedVersion σ (q.nextIndex σ) := by cases σ <;> exact ⟨rfl, rfl⟩
  simp only [BoundedQueue.dealNContinuously, same, setNextIndex_version]
  split_ifs with few all all
  · rw [min_eq_left few] at fits
    obtain ⟨holds, index, cap, out⟩ := h.dealSlots σ next vs few fits
    exact ⟨_, congrArg some (Prod.ext rfl out), holds, index, cap⟩
  · refine absurd (fun i hi => ?_) all
    exact (h.round_ready_iff σ (by omega)).mpr (by omega)
  · -- the first slot that is not ready belongs to the range
    have inside := stop.resolve_left few
    have := (h.round_ready_iff σ inside).mp (all _ (not_le.mp few))
    omega
  · rfl

/-- `try_deal_n_continuously` under the same condition. -/
theorem tryDealNContinuously (σ : Side) (vs : Nat → α) (num : Nat)
    (fits : q.nextIndex σ % q.capacity + min num (room σ q.capacity xs) ≤ q.capacity)
    (stop : num ≤ room σ q.capacity xs ∨
      q.nextIndex σ % q.capacity + room σ q.capacity xs < q.capacity) :
    let n := min num (room σ q.capacity xs)
    ∃ q', q.tryDealNContinuously σ (q.nextIndex σ) num vs = (q', seen σ xs n vs) ∧
      q'.Holds (moved σ xs n vs) ∧ q'.nextIndex σ = q.nextIndex σ + n ∧
        q'.capacity = q.capacity := by
  intro n
  have ready : q.readyNum σ (q.nextIndex σ) num = n := by
    apply length_takeWhile_range (min_le_left ..)
    · intro i hi
      have := (h.round_ready_iff σ (i := i) (by omega)).mpr (by omega)
      simp [this]
    · refine (le_or_gt num (room σ q.capacity xs)).imp (fun few => min_eq_left few) fun many => ?_
      have inside := stop.resolve_left (not_le.mpr many)
      have := (h.round_ready_iff σ inside).not.mpr (lt_irrefl _)
      rw [min_eq_right many.le]
      simpa [eq_comm] using this
  simp only [BoundedQueue.tryDealNContinuously, ready]
  split_ifs with none
  · exact ⟨q, by simp [none], by simpa [none] using h, by omega, rfl⟩
  · obtain ⟨holds, index, cap, out⟩ := h.dealSlots σ (q.nextIndex σ + n) vs (min_le_right ..) fits
    rw [setNextIndex_eq _ _ _ index] at holds
    exact ⟨_, Prod.ext rfl out, holds, index, cap⟩

/-- The first part of a batch that goes on in the next round ends with the round. -/
theorem round (σ : Side) :
    ∃ m, 0 < m ∧ m ≤ q.capacity ∧ q.nextIndex σ % q.capacity + m = q.capacity ∧
    q.nextRoundBeginIndex (q.nextIndex σ) = q.nextIndex σ + m ∧
      (q.nextIndex σ + m) % q.capacity = 0 := by
  have pos := h.sized.capacity_pos
  have lt := Nat.mod_lt (q.nextIndex σ) pos
  have split := Nat.div_add_mod (q.nextIndex σ) q.capacity
  have next := h.sized.nextRoundBeginIndex_eq (q.nextIndex σ)
  rw [Nat.succ_mul, Nat.mul_comm] at next
  refine ⟨q.capacity - q.nextIndex σ % q.capacity, by omega, by omega, by omega, by omega, ?_⟩
  have : q.nextIndex σ + (q.capacity - q.nextIndex σ % q.capacity) =
      q.capacity * (q.nextIndex σ / q.capacity + 1) := by
    rw [Nat.mul_succ]
    omega
  rw [this, Nat.mul_mod_right]

/-- `push_n` and `pop_n` move all of the elements, or they wait. -/
theorem dealN (σ : Side) (vs : Nat → α) (num : Nat) :
    if num ≤ room σ q.capacity xs then
      ∃ q', q.dealN σ num vs = some (q', seen σ xs num vs) ∧ q'.capacity = q.capacity ∧
        q'.Holds (moved σ xs num vs)
    else q.dealN σ num vs = none := by
  have bound := h.room_le σ
  obtain ⟨m, pos, le, fits, next, wrap⟩ := h.round σ
  simp only [BoundedQueue.dealN, next, Nat.add_le_add_iff_left]
  by_cases one : num ≤ m
  · have part := h.dealNContinuously σ (q.nextIndex σ + num) vs num (by omega) (by omega)
    rw [if_pos one]
    split_ifs at part ⊢ with few
    · obtain ⟨q', ret, holds, index, cap⟩ := part
      rw [setNextIndex_eq _ _ _ index] at holds
      exact ⟨q', ret, cap, holds⟩
    · exact part
  · have first := h.dealNContinuously σ (q.nextIndex σ + num) vs m (by omega) (by omega)
    rw [if_neg one, Nat.add_sub_cancel_left, Nat.add_sub_add_left]
    split_ifs at first with enough
    · obtain ⟨q₁, ret, holds, index, cap⟩ := first
      have second := holds.dealNContinuously σ (q.nextIndex σ + num) (fun i => vs (m + i))
        (num - m)
      simp only [nextIndex_setNextIndex, setNextIndex_capacity, cap, wrap, room_moved,
        setNextIndex_setNextIndex, setNextIndex_eq _ _ _ index] at second
      have second := second (by omega) (by omega)
      rw [ret, Option.bind_some]
      split_ifs at second ⊢ with few few' few'
      · obtain ⟨q', ret', holds', index', cap'⟩ := second
        rw [ret', Option.map_some]
        have sum : m + (num - m) = num := by omega
        have total : q.nextIndex σ + m + (num - m) = q.nextIndex σ + num := by omega
        rw [moved_add, sum, total, setNextIndex_eq _ _ _ index'] at holds'
        rw [seen_add, sum]
        exact ⟨q', rfl, cap', holds'⟩
      · omega
      · omega
      · rw [second]
        rfl
    · rw [first, if_neg (by omega)]
      rfl

/-- `try_push_n` and `try_pop_n` move as many elements as they can. -/
theorem tryDealN (σ : Side) (vs : Nat → α) (num : Nat) :
    let n := min num (room σ q.capacity xs)
    ∃ q', q.tryDealN σ num vs = (q', seen σ xs n vs) ∧ q'.capacity = q.capacity ∧
      q'.Holds (moved σ xs n vs) := by
  intro n
  have bound := h.room_le σ
  obtain ⟨m, pos, le, fits, next, wrap⟩ := h.round σ
  simp only [BoundedQueue.tryDealN, next, Nat.add_le_add_iff_left]
  by_cases one : num ≤ m
  · obtain ⟨q', ret, holds, -, cap⟩ := h.tryDealNContinuously σ vs num (by omega) (by omega)
    rw [if_pos one]
    exact ⟨q', ret, cap, holds⟩
  · obtain ⟨q₁, ret, holds, index, cap⟩ :=
      h.tryDealNContinuously σ vs m (by omega) (by omega)
    rw [if_neg one, Nat.add_sub_cancel_left, Nat.add_sub_add_left, ret]
    simp only [length_seen σ q.capacity xs _ vs (min_le_right m _)]
    split_ifs with early
    · -- the round has stopped the first part
      have same : n = min m (room σ q.capacity xs) := by omega
      rw [same]
      exact ⟨q₁, rfl, cap, holds⟩
    · have whole : min m (room σ q.capacity xs) = m := by omega
      rw [whole] at holds index ret ⊢
      have second := holds.tryDealNContinuously σ (fun i => vs (m + i)) (num - m)
      simp only [index, cap, wrap, room_moved] at second
      obtain ⟨q', ret', holds', -, cap'⟩ := second (by omega) (by omega)
      have sum : m + min (num - m) (room σ q.capacity xs - m) = n := by omega
      rw [moved_add, sum] at holds'
      rw [ret']
      exact ⟨q', by rw [seen_add, sum], cap', holds'⟩

/-- `size` is the number of elements. -/
theorem size_eq : q.size = xs.length := by
  have next := h.next
  unfold BoundedQueue.size
  split_ifs <;> omega

theorem clear : q.clear.capacity = q.capacity ∧ q.clear.Holds [] := by
  obtain ⟨q', ret, cap, holds⟩ := h.tryDealN .cons q.value q.capacity
  have all : min q.capacity (room .cons q.capacity xs) = xs.length := min_eq_right h.fits
  rw [BoundedQueue.clear, ret]
  simp only [all, moved, List.drop_length] at holds
  exact ⟨cap, holds⟩

end Holds

/-! ## Runs -/

/-- A queue of a capacity that holds the elements. -/
def Represents {capacity : Nat} (q : BoundedQueue α) (f : Fifo α capacity) : Prop :=
  q.capacity = capacity ∧ q.Holds f.items

section Represents

variable {q q' : BoundedQueue α} {f : Fifo α q.capacity}

/-- The queue after a push of elements that fit. -/
theorem represents_accept {n : Nat} {vs : Nat → α} (fits : n ≤ f.free)
    (cap : q'.capacity = q.capacity) (holds : q'.Holds (moved .prod f.items n vs)) :
    Represents q' (f.accept (QueueCall.elements vs n)) := by
  refine ⟨cap, ?_⟩
  rw [Fifo.accept_items_of_le (by simpa [QueueCall.elements] using fits)]
  exact holds

/-- A single push, with either way to fail. -/
theorem Holds.push_cases (h : q.Holds f.items) (wake : Bool) (v : α) :
    (1 ≤ f.free ∧ ∃ q', q.deal wake .prod v = some (q', v) ∧ Represents q' (f.accept [v])) ∨
      ¬1 ≤ f.free ∧ q.deal wake .prod v = none := by
  have one := h.deal wake .prod v
  change if 1 ≤ f.free then _ else _ at one
  split_ifs at one with fits
  · obtain ⟨q', x, ret, cap, holds, out⟩ := one
    obtain rfl : x = v := List.singleton_inj.mp out
    exact Or.inl ⟨fits, q', ret, represents_accept fits cap holds⟩
  · exact Or.inr ⟨fits, one⟩

/-- A single pop, with either way to fail. -/
theorem Holds.pop_cases (h : q.Holds f.items) (wake : Bool) (v : α) :
    (1 ≤ f.items.length ∧ ∃ q' x, q.deal wake .cons v = some (q', x) ∧
        Represents q' (f.drop 1) ∧ [x] = f.items.take 1) ∨
      ¬1 ≤ f.items.length ∧ q.deal wake .cons v = none := by
  have one := h.deal wake .cons v
  change if 1 ≤ f.items.length then _ else _ at one
  split_ifs at one with some
  · obtain ⟨q', x, ret, cap, holds, out⟩ := one
    exact Or.inl ⟨some, q', x, ret, ⟨cap, holds⟩, out⟩
  · exact Or.inr ⟨some, one⟩

end Represents

theorem device_simulates (capacity : Nat) :
    (device α).Simulates (QueueCall.queue α capacity) Represents := by
  rintro q f c ⟨rfl, holds⟩
  cases c with
  | push wake v =>
    simp only [device, QueueCall.queue]
    obtain ⟨fits, q', ret, next⟩ | ⟨full, ret⟩ := holds.push_cases wake v
    · rw [ret, if_pos fits]
      exact .some ⟨next, rfl⟩
    · rw [ret, if_neg full]
      exact .none
  | pop wake =>
    simp only [device, QueueCall.queue]
    obtain ⟨some, q', x, ret, next, out⟩ | ⟨empty, ret⟩ := holds.pop_cases wake (q.value 0)
    · rw [ret, if_pos some, ← out]
      exact .some ⟨next, rfl⟩
    · rw [ret, if_neg empty]
      exact .none
  | tryPush wake v =>
    simp only [device, QueueCall.queue, tryDealWake_eq_deal]
    obtain ⟨fits, q', ret, next⟩ | ⟨full, ret⟩ := holds.push_cases wake v
    · rw [ret, if_pos fits]
      exact .some ⟨next, rfl⟩
    · rw [ret, if_neg full]
      exact .some ⟨⟨rfl, holds⟩, rfl⟩
  | tryPop wake =>
    simp only [device, QueueCall.queue, tryDealWake_eq_deal]
    obtain ⟨some, q', x, ret, next, out⟩ | ⟨empty, ret⟩ := holds.pop_cases wake (q.value 0)
    · rw [ret, if_pos some, ← out]
      exact .some ⟨next, rfl⟩
    · rw [ret, if_neg empty]
      exact .some ⟨⟨rfl, holds⟩, rfl⟩
  | pushN vs num =>
    have all := holds.dealN .prod vs num
    simp only [device, QueueCall.queue]
    change if num ≤ f.free then _ else _ at all
    split_ifs at all ⊢ with fits
    · obtain ⟨q', ret, cap, holds'⟩ := all
      rw [ret]
      exact .some ⟨represents_accept fits cap holds', rfl⟩
    · rw [all]
      exact .none
  | popN num =>
    have all := holds.dealN .cons q.value num
    simp only [device, QueueCall.queue]
    change if num ≤ f.items.length then _ else _ at all
    split_ifs at all ⊢ with enough
    · obtain ⟨q', ret, cap, holds'⟩ := all
      rw [ret]
      exact .some ⟨⟨cap, holds'⟩, rfl⟩
    · rw [all]
      exact .none
  | tryPushN vs num =>
    obtain ⟨q', ret, cap, holds'⟩ := holds.tryDealN .prod vs num
    simp only [device, QueueCall.queue, ret]
    exact .some ⟨represents_accept (min_le_right ..) cap holds', rfl⟩
  | tryPopN num =>
    obtain ⟨q', ret, cap, holds'⟩ := holds.tryDealN .cons q.value num
    simp only [device, QueueCall.queue, ret]
    exact .some ⟨⟨cap, holds'⟩, rfl⟩
  | clear => exact .some ⟨holds.clear, rfl⟩
  | size => exact .some ⟨⟨rfl, holds⟩, congrArg QueueAnswer.size holds.size_eq⟩

/-- A `ConcurrentBoundedQueue` answers every sequence of calls like a queue of its capacity. -/
theorem answers_eq_fifo (zero : α) (minCapacity : Nat) (calls : List (QueueCall α)) :
    (device α).answers (reserveAndClear zero minCapacity) calls =
      (QueueCall.queue α (bitCeil minCapacity)).answers (.empty ..) calls :=
  (device_simulates _).answers_eq ⟨rfl, reserveAndClear_holds zero minCapacity⟩ calls

end BoundedQueue

end Fuxi.Base
