import Fuxi.Base.RteRing

/-!
# `ConcurrentBoundedQueue`

The queue hands out tickets, the indices of a logical space `[0, ...)`. The low bits of
a ticket name a slot and the other bits an epoch. Each slot has a futex word whose low
16 bits are a version: `2 * epoch` when the slot waits for the push of that epoch and
`2 * epoch + 1` when it waits for the pop. Push and pop differ only in the next index
they use and in the version they expect, so both are instances over `Side`.
-/

namespace Fuxi.Base

open Lib

/-- `ConcurrentBoundedQueue<T>`; `value` and `futex` are the fields of the slots. The next
indices are numbers without a bound. -/
structure BoundedQueue (α : Type*) where
  capacity : Nat
  slotMask : Nat
  slotBits : Nat
  value : Nat → α
  futex : Nat → Nat
  nextPushIndex : Nat
  nextPopIndex : Nat

namespace BoundedQueue

variable {α : Type*}

/-- `reserve_and_clear` on a queue that has not used an outer buffer yet; `zero` is the
value of `T()`, and `_slot_bits` counts the trailing zeros of a power of two. -/
def reserveAndClear (zero : α) (minCapacity : Nat) : BoundedQueue α where
  capacity := bitCeil minCapacity
  slotMask := bitCeil minCapacity - 1
  slotBits := Nat.log2 (bitCeil minCapacity)
  value := fun _ => zero
  futex := fun _ => 0
  nextPushIndex := 0
  nextPopIndex := 0

/-- `push_version_for_index`. -/
def pushVersionForIndex (slotBits index : Nat) : Nat := u16 ((index >>> slotBits) <<< 1)

/-- `pop_version_for_index`. -/
def popVersionForIndex (slotBits index : Nat) : Nat :=
  u16 (pushVersionForIndex slotBits index + 1)

/-- `expected_version` of the push or the pop of a ticket. -/
def expectedVersion (q : BoundedQueue α) : Side → Nat → Nat
  | .prod, index => pushVersionForIndex q.slotBits index
  | .cons, index => popVersionForIndex q.slotBits index

def slotIndex (q : BoundedQueue α) (index : Nat) : Nat := index &&& q.slotMask

/-- `SlotFutex::version`. -/
def version (q : BoundedQueue α) (slot : Nat) : Nat := u16 (q.futex slot)

/-- `SlotFutex::set_version` stores the low half of the futex word. -/
def setVersion (q : BoundedQueue α) (slot version : Nat) : BoundedQueue α :=
  { q with
    futex := Function.update q.futex slot (q.futex slot / 65536 * 65536 + u16 version) }

/-- The exchange of `SlotFutex::set_version_and_wakeup_waiters`. -/
def exchangeVersion (q : BoundedQueue α) (slot version : Nat) : BoundedQueue α :=
  { q with futex := Function.update q.futex slot (u16 version) }

def nextIndex (q : BoundedQueue α) : Side → Nat
  | .prod => q.nextPushIndex
  | .cons => q.nextPopIndex

def setNextIndex (q : BoundedQueue α) : Side → Nat → BoundedQueue α
  | .prod, index => { q with nextPushIndex := index }
  | .cons, index => { q with nextPopIndex := index }

/-- What the callback of a single push or pop does to a slot: a push assigns `v`, a pop
copies the value of the slot out. -/
def callback (q : BoundedQueue α) (σ : Side) (slot : Nat) (v : α) : BoundedQueue α × α :=
  match σ with
  | .prod => ({ q with value := Function.update q.value slot v }, v)
  | .cons => (q, q.value slot)

/-- `(index + _slot_mask + 1) & ~_slot_mask`. -/
def nextRoundBeginIndex (q : BoundedQueue α) (index : Nat) : Nat :=
  (index + q.slotMask + 1) - ((index + q.slotMask + 1) &&& q.slotMask)

/-! ## Tickets, slots and versions -/

/-- The sizes that `reserve_and_clear` sets up. -/
structure Sized (q : BoundedQueue α) : Prop where
  capacity_eq : q.capacity = 2 ^ q.slotBits
  mask_eq : q.slotMask = 2 ^ q.slotBits - 1

theorem reserveAndClear_sized (zero : α) (minCapacity : Nat) :
    (reserveAndClear zero minCapacity).Sized := by
  obtain ⟨k, hk⟩ := bitCeil_eq_two_pow minCapacity
  simp only [reserveAndClear]
  rw [hk, Nat.log2_two_pow]
  exact ⟨rfl, rfl⟩

/-- How many operations have used the slot of a ticket before its push (its pop): two in
every epoch. The version of the slot is this number, compressed to 16 bits. -/
def phase (capacity : Nat) : Side → Nat → Nat
  | .prod, index => 2 * (index / capacity)
  | .cons, index => 2 * (index / capacity) + 1

/-- Different operations on one slot have different phases. -/
theorem phase_inj {c j k : Nat} {σ τ : Side} (slot : j % c = k % c)
    (h : phase c σ j = phase c τ k) : σ = τ ∧ j = k := by
  have hj := Nat.div_add_mod j c
  have hk := Nat.div_add_mod k c
  cases σ <;> cases τ <;> simp only [phase] at h
  · have : j / c = k / c := by omega
    rw [this] at hj
    exact ⟨rfl, by omega⟩
  · omega
  · omega
  · have : j / c = k / c := by omega
    rw [this] at hj
    exact ⟨rfl, by omega⟩

/-- The tickets of one round use consecutive slots in the same phase. -/
theorem round_add {c index num i : Nat} (fits : index % c + num ≤ c) (hi : i < num) :
    (index + i) % c = index % c + i ∧ (index + i) / c = index / c := by
  have pos : 0 < c := by omega
  have small : index % c + i < c := by omega
  have hd := Nat.div_add_mod index c
  rw [← hd, Nat.add_assoc, Nat.mul_add_mod, Nat.mul_add_div pos, Nat.mod_eq_of_lt small,
    Nat.div_eq_of_lt small, Nat.mul_add_mod, Nat.mod_mod, Nat.mul_add_div pos]
  simp

theorem phase_add {c index num i : Nat} (σ : Side) (fits : index % c + num ≤ c) (hi : i < num) :
    phase c σ (index + i) = phase c σ index := by
  cases σ <;> simp only [phase, (round_add fits hi).2]

namespace Sized

variable {q : BoundedQueue α}

theorem capacity_pos (h : q.Sized) : 0 < q.capacity := by
  rw [h.capacity_eq]; exact Nat.two_pow_pos _

theorem slotIndex_eq (h : q.Sized) (index : Nat) : q.slotIndex index = index % q.capacity := by
  rw [slotIndex, h.mask_eq, h.capacity_eq, Nat.and_two_pow_sub_one_eq_mod]

theorem expectedVersion_eq (h : q.Sized) (σ : Side) (index : Nat) :
    q.expectedVersion σ index = u16 (phase q.capacity σ index) := by
  cases σ <;>
    simp only [expectedVersion, popVersionForIndex, pushVersionForIndex, phase,
      h.capacity_eq, Nat.shiftRight_eq_div_pow, Nat.shiftLeft_eq, Nat.pow_one, u16] <;>
    omega

theorem nextRoundBeginIndex_eq (h : q.Sized) (index : Nat) :
    q.nextRoundBeginIndex index = (index / q.capacity + 1) * q.capacity := by
  have pos := h.capacity_pos
  have step : index + q.slotMask + 1 = index + q.capacity := by
    rw [h.mask_eq, h.capacity_eq] at *; omega
  rw [nextRoundBeginIndex, step, h.mask_eq, Nat.and_two_pow_sub_one_eq_mod, ← h.capacity_eq,
    Nat.add_mod_right, Nat.succ_mul, Nat.mul_comm]
  have := Nat.div_add_mod index q.capacity
  omega

theorem lt_nextRoundBeginIndex (h : q.Sized) (index : Nat) :
    index < q.nextRoundBeginIndex index := by
  rw [h.nextRoundBeginIndex_eq]
  exact Nat.lt_mul_of_div_lt (Nat.lt_succ_self _) h.capacity_pos

end Sized

/-- The 64-bit indices of the code show the same versions as the tickets: their wrap is
invisible to queues of at most `2^49` slots. -/
theorem pushVersionForIndex_u64 {slotBits : Nat} (h : slotBits ≤ 49) (index : Nat) :
    pushVersionForIndex slotBits (u64 index) = pushVersionForIndex slotBits index := by
  have split : 18446744073709551616 = 2 ^ slotBits * 2 ^ (64 - slotBits) := by
    rw [← Nat.pow_add, Nat.add_sub_cancel' (by omega)]
  have low : 32768 ∣ 2 ^ (64 - slotBits) := Nat.pow_dvd_pow 2 (show 15 ≤ 64 - slotBits by omega)
  simp only [pushVersionForIndex, u64, u16, Nat.shiftRight_eq_div_pow, Nat.shiftLeft_eq,
    Nat.pow_one]
  rw [split, Nat.mod_mul_right_div_self]
  have := Nat.mod_mod_of_dvd (index / 2 ^ slotBits) low
  omega

section Fields

variable (q : BoundedQueue α) (σ τ : Side) (slot t v index : Nat) (x : α)

theorem version_setVersion :
    (q.setVersion slot v).version t = if t = slot then u16 v else q.version t := by
  by_cases h : t = slot
  · subst h; simp [version, setVersion, u16]
  · simp [version, setVersion, h]

theorem version_exchangeVersion :
    (q.exchangeVersion slot v).version t = if t = slot then u16 v else q.version t := by
  by_cases h : t = slot
  · subst h; simp [version, exchangeVersion, u16]
  · simp [version, exchangeVersion, h]

@[simp] theorem setNextIndex_version : (q.setNextIndex σ index).version t = q.version t := by
  cases σ <;> rfl

@[simp] theorem setNextIndex_capacity : (q.setNextIndex σ index).capacity = q.capacity := by
  cases σ <;> rfl

@[simp] theorem setNextIndex_value : (q.setNextIndex σ index).value = q.value := by
  cases σ <;> rfl

theorem Sized.setNextIndex {q : BoundedQueue α} (h : q.Sized) (σ : Side) (index : Nat) :
    (q.setNextIndex σ index).Sized := by
  cases σ <;> exact ⟨h.capacity_eq, h.mask_eq⟩

/-- The next index of one side goes on. -/
theorem nextIndex_advance (n : Nat) : (q.setNextIndex σ (q.nextIndex σ + n)).nextIndex τ =
    q.nextIndex τ + if τ = σ then n else 0 := by
  cases σ <;> cases τ <;> simp [BoundedQueue.setNextIndex, nextIndex]

end Fields

end BoundedQueue

end Fuxi.Base
