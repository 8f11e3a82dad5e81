import Fuxi.Base.BoundedQueue
import Fuxi.Lib.Fifo

/-!
# `ConcurrentBoundedQueue` used by one thread

What `push`, `pop`, `try_push`, `try_pop` and their batch variants do when no other
call runs, and the list of elements that such a queue holds.
-/

namespace Fuxi.Base.BoundedQueue

open Lib

variable {α : Type*}

/-! ## The operations, executed alone -/

/-- `push` and `pop` when no other call runs, or `none` if they wait: a ticket is taken,
and nobody else can make its slot ready. -/
def pushOrPop (q : BoundedQueue α) (σ : Side) (v : α) : Option (BoundedQueue α × α) :=
  let index := q.nextIndex σ
  let slot := q.slotIndex index
  let expected := q.expectedVersion σ index
  let q' := q.setNextIndex σ (index + 1)
  if q'.version slot = expected then
    let done := q'.callback σ slot v
    some (done.1.exchangeVersion slot (expected + 1), done.2)
  else none

/-- `try_deal` when no other call runs: the compare-exchange succeeds, and a slot that
is not ready makes the call return false, since the index has not moved. -/
def tryDeal (q : BoundedQueue α) (σ : Side) (v : α) : Option (BoundedQueue α × α) :=
  let index := q.nextIndex σ
  let slot := q.slotIndex index
  let expected := q.expectedVersion σ index
  if expected ≠ q.version slot then none
  else
    let done := (q.setNextIndex σ (index + 1)).callback σ slot v
    some (done.1.exchangeVersion slot (expected + 1), done.2)

/-- The first loop of `try_deal_n_continuously`: how many slots in a row are ready. -/
def readyNum (q : BoundedQueue α) (σ : Side) (index num : Nat) : Nat :=
  ((List.range num).takeWhile fun i =>
    q.expectedVersion σ index = q.version (q.slotIndex index + i)).length

/-- `try_deal_n_continuously<true, false>` when no other call runs. A push stores
`vs 0, vs 1, ..`; the result lists what the callback has seen in the slots. -/
def tryDealNContinuously (q : BoundedQueue α) (σ : Side) (index num : Nat) (vs : Nat → α) :
    BoundedQueue α × List α :=
  let ready := q.readyNum σ index num
  if ready = 0 then (q, [])
  else
    (List.range ready).foldl
      (fun p i =>
        let slot := q.slotIndex index + i
        let done := p.1.callback σ slot (vs i)
        (done.1.setVersion slot (q.expectedVersion σ index + 1), p.2 ++ [done.2]))
      (q.setNextIndex σ (index + ready), [])

/-- `try_push_n` and `try_pop_n` when no other call runs. -/
def tryDealN (q : BoundedQueue α) (σ : Side) (num : Nat) (vs : Nat → α) :
    BoundedQueue α × List α :=
  let index := q.nextIndex σ
  let next := q.nextRoundBeginIndex index
  if index + num ≤ next then q.tryDealNContinuously σ index num vs
  else
    let first := q.tryDealNContinuously σ index (next - index) vs
    if first.2.length < next - index then first
    else
      let second := first.1.tryDealNContinuously σ next (index + num - next)
        fun i => vs (next - index + i)
      (second.1, first.2 ++ second.2)

/-! ## The queue as a list -/

section Fields

variable (q : BoundedQueue α) (σ : Side) (x : α)

/-- `try_deal` on a slot that is ready. -/
theorem tryDeal_ready
    (ready : q.expectedVersion σ (q.nextIndex σ) = q.version (q.slotIndex (q.nextIndex σ))) :
    q.tryDeal σ x =
      let done := (q.setNextIndex σ (q.nextIndex σ + 1)).callback σ
        (q.slotIndex (q.nextIndex σ)) x
      some (done.1.exchangeVersion (q.slotIndex (q.nextIndex σ))
        (q.expectedVersion σ (q.nextIndex σ) + 1), done.2) := by
  simp only [tryDeal]
  rw [if_neg (not_not.mpr ready)]

/-- `try_deal` on a slot that is not ready. -/
theorem tryDeal_blocked
    (blocked : q.expectedVersion σ (q.nextIndex σ) ≠ q.version (q.slotIndex (q.nextIndex σ))) :
    q.tryDeal σ x = none := by
  simp only [tryDeal]
  rw [if_pos blocked]

/-- A blocking call that does not wait does what the other one does. -/
theorem pushOrPop_eq : q.pushOrPop σ x = q.tryDeal σ x := by
  simp only [pushOrPop, tryDeal, setNextIndex_version, ne_eq, ite_not]
  by_cases h : q.version (q.slotIndex (q.nextIndex σ)) = q.expectedVersion σ (q.nextIndex σ)
  · simp [h]
  · simp [h, Ne.symm h]

/-- A batch of one element that fits is one round of `try_deal_n_continuously`. -/
theorem tryDealN_one (h : q.Sized) (vs : Nat → α) : q.tryDealN σ 1 vs =
    if q.expectedVersion σ (q.nextIndex σ) = q.version (q.slotIndex (q.nextIndex σ)) then
      let done := (q.setNextIndex σ (q.nextIndex σ + 1)).callback σ
        (q.slotIndex (q.nextIndex σ)) (vs 0)
      (done.1.setVersion (q.slotIndex (q.nextIndex σ))
        (q.expectedVersion σ (q.nextIndex σ) + 1), [done.2])
    else (q, []) := by
  have fits := h.lt_nextRoundBeginIndex (q.nextIndex σ)
  rw [tryDealN, if_pos (by omega), tryDealNContinuously]
  by_cases ready : q.expectedVersion σ (q.nextIndex σ) = q.version (q.slotIndex (q.nextIndex σ))
  · cases σ <;> simp [readyNum, ready, callback, setNextIndex, slotIndex]
  · simp [readyNum, ready]

end Fields

/-- The tickets from `_next_pop_index` on hold the elements of a list, and the tickets
after them wait for a push. -/
structure Holds (q : BoundedQueue α) (xs : List α) : Prop where
  sized : q.Sized
  fits : xs.length ≤ q.capacity
  next : q.nextPushIndex = q.nextPopIndex + xs.length
  value : ∀ i (h : i < xs.length), q.value ((q.nextPopIndex + i) % q.capacity) = xs[i]
  full : ∀ i < xs.length, q.version ((q.nextPopIndex + i) % q.capacity) =
    u16 (2 * ((q.nextPopIndex + i) / q.capacity) + 1)
  free : ∀ i, xs.length ≤ i → i < q.capacity →
    q.version ((q.nextPopIndex + i) % q.capacity) =
      u16 (2 * ((q.nextPopIndex + i) / q.capacity))

/-- The values in the slots between the two next indices. -/
def contents (q : BoundedQueue α) : List α :=
  (List.range (q.nextPushIndex - q.nextPopIndex)).map fun i =>
    q.value (q.slotIndex (q.nextPopIndex + i))

theorem Holds.contents_eq {q : BoundedQueue α} {xs : List α} (h : q.Holds xs) :
    q.contents = xs := by
  have len : q.nextPushIndex - q.nextPopIndex = xs.length := by
    rw [h.next, Nat.add_sub_cancel_left]
  refine List.ext_getElem (by simp [contents, len]) fun i _ hi => ?_
  simp only [contents, List.getElem_map, List.getElem_range, h.sized.slotIndex_eq]
  exact h.value i hi

theorem reserveAndClear_holds (zero : α) (minCapacity : Nat) :
    (reserveAndClear zero minCapacity).Holds [] := by
  have sized := reserveAndClear_sized zero minCapacity
  refine ⟨sized, Nat.zero_le _, rfl, fun i h => absurd h (Nat.not_lt_zero i),
    fun i h => absurd h (Nat.not_lt_zero i), fun i _ h => ?_⟩
  have zero : (reserveAndClear zero minCapacity).nextPopIndex = 0 := rfl
  rw [zero, Nat.zero_add, Nat.div_eq_of_lt h]
  rfl

namespace Holds

variable {q q' : BoundedQueue α} {xs : List α}

/-- The slot of the next push is ready exactly if the list leaves room. -/
theorem push_ready (h : q.Holds xs) :
    q.expectedVersion .prod q.nextPushIndex = q.version (q.slotIndex q.nextPushIndex) ↔
      xs.length < q.capacity := by
  have pos := h.sized.capacity_pos
  rw [h.sized.expectedVersion_eq, h.sized.slotIndex_eq, h.next, phase]
  constructor
  · intro eq
    by_contra full
    have len : xs.length = q.capacity := Nat.le_antisymm h.fits (not_lt.mp full)
    have := h.full 0 (by omega)
    rw [Nat.add_zero] at this
    rw [len, Nat.add_mod_right, Nat.add_div_right _ pos, this] at eq
    unfold u16 at eq
    omega
  · intro room
    exact (h.free xs.length le_rfl room).symm

/-- The slot of the next pop is ready exactly if the list has an element. -/
theorem pop_ready (h : q.Holds xs) :
    q.expectedVersion .cons q.nextPopIndex = q.version (q.slotIndex q.nextPopIndex) ↔
      0 < xs.length := by
  have pos := h.sized.capacity_pos
  rw [h.sized.expectedVersion_eq, h.sized.slotIndex_eq, phase]
  constructor
  · intro eq
    by_contra empty
    have := h.free 0 (by omega) pos
    rw [Nat.add_zero] at this
    rw [this] at eq
    unfold u16 at eq
    omega
  · intro some
    have := h.full 0 some
    rw [Nat.add_zero] at this
    exact this.symm

/-- A push appends its value, whichever way it sets the version. -/
theorem push (h : q.Holds xs) (v : α) (room : xs.length < q.capacity)
    (sizes : q'.capacity = q.capacity ∧ q'.slotMask = q.slotMask ∧ q'.slotBits = q.slotBits)
    (pop : q'.nextPopIndex = q.nextPopIndex) (next : q'.nextPushIndex = q.nextPushIndex + 1)
    (value : q'.value = Function.update q.value (q.slotIndex q.nextPushIndex) v)
    (version : ∀ t, q'.version t = if t = q.slotIndex q.nextPushIndex then
      u16 (q.expectedVersion .prod q.nextPushIndex + 1) else q.version t) :
    q'.Holds (xs ++ [v]) := by
  obtain ⟨cap, mask, bits⟩ := sizes
  have slot : q.slotIndex q.nextPushIndex = (q.nextPopIndex + xs.length) % q.capacity := by
    rw [h.sized.slotIndex_eq, h.next]
  have other : ∀ i, i < q.capacity → i ≠ xs.length →
      (q.nextPopIndex + i) % q.capacity ≠ (q.nextPopIndex + xs.length) % q.capacity :=
    fun i hi ne eq => ne (Nat.add_left_cancel (slot_inj (by omega) (by omega) eq))
  refine ⟨⟨by rw [cap, bits]; exact h.sized.capacity_eq, by rw [mask, bits]; exact h.sized.mask_eq⟩,
    ?_, ?_, ?_, ?_, ?_⟩
  · simp only [List.length_append, List.length_singleton, cap]; omega
  · simp only [List.length_append, List.length_singleton, next, pop, h.next]; omega
  · intro i hi
    simp only [List.length_append, List.length_singleton] at hi
    rw [pop, cap, value, slot]
    by_cases last : i = xs.length
    · subst last; simp
    · rw [Function.update_of_ne (other i (by omega) last), h.value i (by omega),
        List.getElem_append_left]
  · intro i hi
    simp only [List.length_append, List.length_singleton] at hi
    rw [pop, cap, version, slot]
    by_cases last : i = xs.length
    · subst last
      rw [if_pos rfl, h.sized.expectedVersion_eq, phase, h.next]
      unfold u16; omega
    · rw [if_neg (other i (by omega) last), h.full i (by omega)]
  · intro i hi hi'
    simp only [List.length_append, List.length_singleton] at hi
    rw [cap] at hi'
    rw [pop, cap, version, slot, if_neg (other i hi' (by omega)), h.free i (by omega) hi']

/-- A pop removes the first value, whichever way it sets the version. -/
theorem pop {x : α} {p : BoundedQueue α} (h : q.Holds (x :: xs))
    (sizes : p.capacity = q.capacity ∧ p.slotMask = q.slotMask ∧ p.slotBits = q.slotBits)
    (pop : p.nextPopIndex = q.nextPopIndex + 1) (next : p.nextPushIndex = q.nextPushIndex)
    (value : p.value = q.value)
    (version : ∀ t, p.version t = if t = q.slotIndex q.nextPopIndex then
      u16 (q.expectedVersion .cons q.nextPopIndex + 1) else q.version t) :
    p.Holds xs ∧ q.value (q.slotIndex q.nextPopIndex) = x := by
  obtain ⟨cap, mask, bits⟩ := sizes
  have pos := h.sized.capacity_pos
  have fits := h.fits
  rw [List.length_cons] at fits
  have slot : q.slotIndex q.nextPopIndex = (q.nextPopIndex + 0) % q.capacity := by
    rw [h.sized.slotIndex_eq, Nat.add_zero]
  have other : ∀ i, i < q.capacity → i ≠ 0 →
      (q.nextPopIndex + i) % q.capacity ≠ (q.nextPopIndex + 0) % q.capacity :=
    fun i hi ne eq => ne (Nat.add_left_cancel (slot_inj (by omega) (by omega) eq))
  have shift : ∀ i, q.nextPopIndex + 1 + i = q.nextPopIndex + (i + 1) := fun i => by omega
  refine ⟨⟨⟨by rw [cap, bits]; exact h.sized.capacity_eq,
    by rw [mask, bits]; exact h.sized.mask_eq⟩,
    ?_, ?_, ?_, ?_, ?_⟩, ?_⟩
  · rw [cap]; omega
  · rw [next, pop, h.next, List.length_cons]; omega
  · intro i hi
    rw [pop, cap, value, shift, h.value (i + 1) (by simpa using hi), List.getElem_cons_succ]
  · intro i hi
    rw [pop, cap, version, slot, shift, if_neg (other _ (by omega) (by omega)),
      h.full (i + 1) (by simpa using hi)]
  · intro i hi hi'
    rw [cap] at hi'
    rw [pop, cap, version, slot, shift]
    by_cases last : i + 1 = q.capacity
    · rw [last, Nat.add_mod_right, Nat.add_zero, if_pos rfl, h.sized.expectedVersion_eq,
        phase, Nat.add_div_right _ pos]
      unfold u16; omega
    · rw [if_neg (other _ (by omega) (by omega)), h.free (i + 1) (by simpa using hi) (by omega)]
  · rw [slot, h.value 0 (by simp), List.getElem_cons_zero]

/-- `push` and `try_push` append an element if there is room. -/
theorem tryDeal_push (h : q.Holds xs) (v : α) (room : xs.length < q.capacity) :
    ∃ q', q.tryDeal .prod v = some (q', v) ∧ q'.Holds (xs ++ [v]) ∧ q'.capacity = q.capacity := by
  have ready := h.push_ready.mpr room
  exact ⟨_, tryDeal_ready q .prod v ready,
    h.push v room ⟨rfl, rfl, rfl⟩ rfl rfl rfl fun t => version_exchangeVersion .., rfl⟩

theorem tryDeal_push_full (h : q.Holds xs) (v : α) (full : ¬xs.length < q.capacity) :
    q.tryDeal .prod v = none :=
  tryDeal_blocked q .prod v fun eq => full (h.push_ready.mp eq)

/-- `pop` takes the first element. -/
theorem tryDeal_pop {x : α} (h : q.Holds (x :: xs)) (v : α) :
    ∃ q', q.tryDeal .cons v = some (q', x) ∧ q'.Holds xs ∧ q'.capacity = q.capacity := by
  have ready := h.pop_ready.mpr (by simp)
  obtain ⟨holds, rfl⟩ := h.pop (p := (q.setNextIndex .cons (q.nextPopIndex + 1)).exchangeVersion
    (q.slotIndex q.nextPopIndex) (q.expectedVersion .cons q.nextPopIndex + 1))
    ⟨rfl, rfl, rfl⟩ rfl rfl rfl fun t => version_exchangeVersion ..
  exact ⟨_, tryDeal_ready q .cons v ready, holds, rfl⟩

theorem tryDeal_pop_empty (h : q.Holds []) (v : α) : q.tryDeal .cons v = none :=
  tryDeal_blocked q .cons v fun eq => absurd (h.pop_ready.mp eq) (by simp)

/-- `try_pop_n` of one element takes the first element. -/
theorem tryDealN_pop {x : α} (h : q.Holds (x :: xs)) (vs : Nat → α) :
    ∃ q', q.tryDealN .cons 1 vs = (q', [x]) ∧ q'.Holds xs ∧ q'.capacity = q.capacity := by
  have ready := h.pop_ready.mpr (by simp)
  obtain ⟨holds, rfl⟩ := h.pop (p := (q.setNextIndex .cons (q.nextPopIndex + 1)).setVersion
    (q.slotIndex q.nextPopIndex) (q.expectedVersion .cons q.nextPopIndex + 1))
    ⟨rfl, rfl, rfl⟩ rfl rfl rfl fun t => version_setVersion ..
  exact ⟨_, (tryDealN_one q .cons h.sized vs).trans (if_pos ready), holds, rfl⟩

theorem tryDealN_pop_empty (h : q.Holds []) (vs : Nat → α) :
    q.tryDealN .cons 1 vs = (q, []) := by
  rw [tryDealN_one q .cons h.sized vs]
  exact if_neg fun eq => absurd (h.pop_ready.mp eq) (by simp)

end Holds

end Fuxi.Base.BoundedQueue
