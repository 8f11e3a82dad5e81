import Fuxi.Base.RteRing
import Fuxi.Lib.Device
import Fuxi.Lib.Fifo

/-!
# The ring is a bounded queue

One thread calls `DoEnqueue` and `DoDequeue`. The elements of the ring lie between the head of
the consumers and the head of the producers, and each call answers what a queue of the same
capacity answers, however often the counters have wrapped.
-/

namespace Fuxi.Base

open Lib

/-- A call with the table of its objects and their number. -/
inductive RingCall (α : Type*)
  | doEnqueue (table : Nat → α) (n : Nat)
  | doDequeue (table : Nat → α) (n : Nat)

/-- What a call returns, its table, and `*free_space` or `*available`. -/
structure RingAnswer (α : Type*) where
  moved : Nat
  table : Nat → α
  space : Nat

/-- The same calls to a queue: all of the elements are moved, or none. -/
def RingCall.queue (α : Type*) (capacity : Nat) :
    Device (Fifo α capacity) (RingCall α) (RingAnswer α) where
  call q
    | .doEnqueue table n =>
      if n ≤ q.free then
        let q' := q.accept ((List.range n).map table)
        some (q', ⟨n, table, q'.free⟩)
      else some (q, ⟨0, table, q.free⟩)
    | .doDequeue table n =>
      if n ≤ q.items.length then
        let q' := q.drop n
        some (q', ⟨n, fun i => (q.items.take n).getD i (table i), q'.items.length⟩)
      else some (q, ⟨0, table, q.items.length⟩)

namespace RteRing

variable {α : Type*}

/-- The elements in the slots between the two ends of a ring that is at rest. -/
def contents (r : RteRing α) : List α :=
  (List.range (sub32 r.prod.tail r.cons.head)).map fun i =>
    r.storage (u32 (r.cons.head + i) &&& r.mask)

/-- The ring after a call that has moved elements. -/
def moved (r : RteRing α) (s : Side) (n : Nat) (storage : Nat → α) : RteRing α :=
  ((r.setHead s ((r.ht s).head + n)).setStorage storage).setTail s ((r.ht s).head + n)

/-- The ring and the answer after a call. -/
def answer (r : RteRing α × (Nat → α) × Nat × Nat) : RteRing α × RingAnswer α :=
  (r.1, ⟨r.2.2.1, r.2.1, r.2.2.2⟩)

def device (α : Type*) : Device (RteRing α) (RingCall α) (RingAnswer α) where
  call r
    | .doEnqueue table n => some (answer (r.doEnqueue table n))
    | .doDequeue table n => some (answer (r.doDequeue table n))

end RteRing

namespace RingBuffer

/-- `RingBuffer::Init`; the slots hold null pointers. -/
def init (minSize : Nat) (isSp isSc : Bool) : RingBuffer := RteRing.init 0 minSize isSp isSc

/-- `RingBuffer::DoEnqueue`. -/
def doEnqueue (r : RingBuffer) (table : Nat → Nat) (n : Nat) := RteRing.doEnqueue r table n

/-- `RingBuffer::DoDequeue`. -/
def doDequeue (r : RingBuffer) (table : Nat → Nat) (n : Nat) := RteRing.doDequeue r table n

def device : Device RingBuffer (RingCall Nat) (RingAnswer Nat) where
  call r
    | .doEnqueue table n => some (RteRing.answer (RingBuffer.doEnqueue r table n))
    | .doDequeue table n => some (RteRing.answer (RingBuffer.doDequeue r table n))

end RingBuffer

namespace RteRing

variable {α : Type*}

/-! ## Consecutive slots -/

/-- The copy loop of a producer fills the slots of its positions and no other slot. -/
theorem foldl_store {size : Nat} (pos : Nat) (storage table : Nat → α) {n : Nat}
    (fits : n ≤ size) :
    ∃ storage', ((List.range n).map fun i => ((pos + i) % size, i)).foldl
        (fun p e => copyOne .prod e p.1 p.2) (storage, table) = (storage', table) ∧
      (∀ i < n, storage' ((pos + i) % size) = table i) ∧
      ∀ x, (∀ i < n, x ≠ (pos + i) % size) → storage' x = storage x := by
  induction n with
  | zero => exact ⟨storage, rfl, by simp, by simp⟩
  | succ n ih =>
    obtain ⟨st, fold, filled, rest⟩ := ih (by omega)
    refine ⟨Function.update st ((pos + n) % size) (table n), ?_, fun i hi => ?_, fun x hx => ?_⟩
    · rw [List.range_succ, List.map_append, List.foldl_append, fold]
      rfl
    · by_cases last : i = n
      · subst last
        exact Function.update_self ..
      · have ne : (pos + i) % size ≠ (pos + n) % size :=
          fun eq => last (Nat.add_left_cancel (slot_inj (by omega) (by omega) eq))
        rw [Function.update_of_ne ne]
        exact filled i (by omega)
    · rw [Function.update_of_ne (hx n (by omega))]
      exact rest x fun i hi => hx i (by omega)

/-- The copy loop of a consumer reads the slots of its positions in order. -/
theorem foldl_load (size pos : Nat) (storage table : Nat → α) (n : Nat) :
    ((List.range n).map fun i => ((pos + i) % size, i)).foldl
        (fun p e => copyOne .cons e p.1 p.2) (storage, table) =
      (storage, fun i => if i < n then storage ((pos + i) % size) else table i) := by
  induction n with
  | zero => simp
  | succ n ih =>
    rw [List.range_succ, List.map_append, List.foldl_append, ih]
    simp only [List.map_cons, List.map_nil, List.foldl_cons, List.foldl_nil, copyOne,
      Prod.mk.injEq, true_and]
    funext i
    by_cases last : i = n
    · subst last
      simp
    · rw [Function.update_of_ne last]
      grind

/-! ## The elements of a ring -/

/-- The elements lie in the slots from the head of the consumers on. -/
structure Holds (r : RteRing α) (xs : List α) : Prop where
  sized : r.WellSized
  pos : 0 < r.size
  fits : xs.length ≤ r.size
  prod : r.prod.tail = r.prod.head
  cons : r.cons.tail = r.cons.head
  next : r.prod.head = r.cons.head + xs.length
  slots : ∀ i (h : i < xs.length), r.storage ((r.cons.head + i) % r.size) = xs[i]

theorem holds_init (zero : α) {objectNum : Nat} (isSp isSc : Bool) (pos : 1 ≤ objectNum)
    (le : objectNum ≤ 2147483648) : (init zero objectNum isSp isSc).Holds [] where
  sized := init_wellSized ..
  pos := pos.trans (le_init_size zero isSp isSc le)
  fits := Nat.zero_le _
  prod := rfl
  cons := rfl
  next := rfl
  slots := fun i h => absurd h (Nat.not_lt_zero i)

theorem init_size (zero : α) {objectNum : Nat} (isSp isSc : Bool) (le : objectNum ≤ 2147483648) :
    (init zero objectNum isSp isSc).size = bitCeil objectNum := by
  have : bitCeil objectNum ≤ 2 ^ 31 := bitCeil_le (k := 31) le
  exact u32_of_lt (by simp only [alignedNum]; omega)

namespace Holds

variable {r : RteRing α} {xs : List α} (h : r.Holds xs)
include h

theorem entries_prod : r.entries .prod (r.ht .prod).head = r.size - xs.length := by
  have := h.sized.size_le
  have := h.fits
  have := h.next
  have := h.cons
  have := h.sized.capacity_eq
  rw [entries, ht, sub32_eq (by omega) (by omega)]
  omega

theorem entries_cons : r.entries .cons (r.ht .cons).head = xs.length := by
  have := h.sized.size_le
  have := h.fits
  have := h.next
  have := h.prod
  rw [entries, ht, sub32_eq (by omega) (by omega)]
  omega

theorem contents_eq : r.contents = xs := by
  have length : sub32 r.prod.tail r.cons.head = xs.length := h.entries_cons
  refine List.ext_getElem (by simp [contents, length]) fun i _ hi => ?_
  simp only [contents, List.getElem_map, List.getElem_range, h.sized.and_mask h.pos]
  exact h.slots i hi

/-- A producer that does not find the room, or is given no elements. -/
theorem doEnqueue_none (table : Nat → α) {n : Nat} (none : n > r.size - xs.length ∨ n = 0) :
    r.doEnqueue table n = (r, table, 0, r.size - xs.length) := by
  simp only [RteRing.doEnqueue, deal, h.entries_prod]
  exact if_pos none

/-- A consumer that does not find the elements, or asks for none. -/
theorem doDequeue_none (table : Nat → α) {n : Nat} (none : n > xs.length ∨ n = 0) :
    r.doDequeue table n = (r, table, 0, xs.length) := by
  simp only [RteRing.doDequeue, deal, h.entries_cons]
  exact if_pos none

/-- Elements that fit are appended. -/
theorem doEnqueue_some (table : Nat → α) {n : Nat} (some : ¬(n > r.size - xs.length ∨ n = 0)) :
    ∃ r', r.doEnqueue table n = (r', table, n, r.size - xs.length - n) ∧ r'.size = r.size ∧
      r'.Holds (xs ++ (List.range n).map table) := by
  have fits := h.fits
  have head : (r.ht .prod).head = r.cons.head + xs.length := h.next
  obtain ⟨storage', copied, filled, rest⟩ :=
    foldl_store (r.cons.head + xs.length) r.storage table (show n ≤ r.size by omega)
  rw [← h.sized.schedule_eq h.pos _ (by omega)] at copied
  refine ⟨r.moved .prod n storage', ?_, rfl, ?_⟩
  · simp only [RteRing.doEnqueue, deal, h.entries_prod, if_neg some]
    simp only [head, copied, moved]
  · refine ⟨⟨h.sized.capacity_eq, h.sized.shape⟩, h.pos, ?_, rfl, h.cons, ?_, fun i hi => ?_⟩
    · simp only [List.length_append, List.length_map, List.length_range]
      change _ ≤ r.size
      omega
    · simp only [List.length_append, List.length_map, List.length_range]
      change r.prod.head + n = r.cons.head + _
      rw [h.next, Nat.add_assoc]
    · change storage' ((r.cons.head + i) % r.size) = _
      by_cases old : i < xs.length
      · have apart : ∀ j < n, (r.cons.head + i) % r.size ≠
            (r.cons.head + xs.length + j) % r.size := by
          intro j hj eq
          have := slot_inj (by omega) (by omega) eq
          omega
        rw [rest _ apart, h.slots i old, List.getElem_append_left]
      · simp only [List.length_append, List.length_map, List.length_range] at hi
        have := filled (i - xs.length) (by omega)
        rw [Nat.add_assoc, Nat.add_sub_cancel' (not_lt.mp old)] at this
        rw [this, List.getElem_append_right (not_lt.mp old)]
        simp

/-- The oldest elements are handed over in order. -/
theorem doDequeue_some (table : Nat → α) {n : Nat} (some : ¬(n > xs.length ∨ n = 0)) :
    ∃ r', r.doDequeue table n =
        (r', fun i => (xs.take n).getD i (table i), n, xs.length - n) ∧ r'.size = r.size ∧
      r'.Holds (xs.drop n) := by
  have fits := h.fits
  have copied := foldl_load r.size r.cons.head r.storage table n
  rw [← h.sized.schedule_eq h.pos _ (by omega)] at copied
  refine ⟨r.moved .cons n r.storage, ?_, rfl, ?_⟩
  · have read : (fun i => if i < n then r.storage ((r.cons.head + i) % r.size) else table i) =
        fun i => (xs.take n).getD i (table i) := by
      funext i
      split_ifs with hi
      · rw [h.slots i (by omega), List.getD_eq_getElem _ _ (by simp; omega), List.getElem_take]
      · rw [List.getD_eq_default _ _ (by simp; omega)]
    have head : (r.ht .cons).head = r.cons.head := rfl
    simp only [RteRing.doDequeue, deal, h.entries_cons, if_neg some]
    simp only [head, copied, read, moved]
  · refine ⟨⟨h.sized.capacity_eq, h.sized.shape⟩, h.pos, ?_, h.prod, rfl, ?_, fun i hi => ?_⟩
    · rw [List.length_drop]
      change _ ≤ r.size
      omega
    · rw [List.length_drop]
      change r.prod.head = r.cons.head + n + _
      have := h.next
      omega
    · rw [List.length_drop] at hi
      change r.storage ((r.cons.head + n + i) % r.size) = _
      rw [Nat.add_assoc, h.slots (n + i) (by omega), List.getElem_drop]

end Holds

/-! ## Runs -/

/-- A ring of a capacity that holds the elements of a queue. -/
def Represents {capacity : Nat} (r : RteRing α) (q : Fifo α capacity) : Prop :=
  r.size = capacity ∧ r.Holds q.items

theorem device_simulates (capacity : Nat) :
    (device α).Simulates (RingCall.queue α capacity) Represents := by
  rintro r q c ⟨rfl, holds⟩
  cases c with
  | doEnqueue table n =>
    simp only [device, RingCall.queue]
    by_cases none : n > r.size - q.items.length ∨ n = 0
    · rw [holds.doEnqueue_none table none]
      split_ifs with room
      · have zero : n = 0 := none.resolve_left (not_lt.mpr room)
        subst zero
        simp only [List.range_zero, List.map_nil, Fifo.accept_nil]
        exact .some ⟨⟨rfl, holds⟩, rfl⟩
      · exact .some ⟨⟨rfl, holds⟩, rfl⟩
    · obtain ⟨r', eq, size, holds'⟩ := holds.doEnqueue_some table none
      have room : n ≤ q.free := by rw [Fifo.free]; omega
      have length : ((List.range n).map table).length = n := by simp
      rw [eq, if_pos room]
      refine .some ⟨⟨size, ?_⟩, ?_⟩
      · rw [Fifo.accept_items_of_le (by omega)]
        exact holds'
      · rw [answer, Fifo.free_accept, length, Fifo.free]
  | doDequeue table n =>
    simp only [device, RingCall.queue]
    by_cases none : n > q.items.length ∨ n = 0
    · rw [holds.doDequeue_none table none]
      split_ifs with enough
      · have zero : n = 0 := none.resolve_left (not_lt.mpr enough)
        subst zero
        exact .some ⟨⟨rfl, holds⟩, by simp [answer]⟩
      · exact .some ⟨⟨rfl, holds⟩, rfl⟩
    · obtain ⟨r', eq, size, holds'⟩ := holds.doDequeue_some table none
      have enough : n ≤ q.items.length := by omega
      rw [eq, if_pos enough]
      refine .some ⟨⟨size, holds'⟩, ?_⟩
      simp only [answer, Fifo.drop_items, List.length_drop]

theorem ringBuffer_device : RingBuffer.device = device Nat := by
  simp only [RingBuffer.device, device, Device.mk.injEq]
  funext r c
  cases c <;> rfl

/-- A ring and a `RingBuffer` for up to `2^31` objects answer every sequence of calls like a
queue whose capacity is the next power of two. -/
theorem answers_eq_queue (zero : α) {objectNum : Nat} (isSp isSc : Bool) (pos : 1 ≤ objectNum)
    (le : objectNum ≤ 2147483648) :
    (∀ calls, (device α).answers (init zero objectNum isSp isSc) calls =
      (RingCall.queue α (bitCeil objectNum)).answers (.empty ..) calls) ∧
    ∀ calls, RingBuffer.device.answers (RingBuffer.init objectNum isSp isSc) calls =
      (RingCall.queue Nat (bitCeil objectNum)).answers (.empty ..) calls :=
  ⟨(device_simulates _).answers_eq ⟨init_size zero isSp isSc le, holds_init zero isSp isSc pos le⟩,
    ringBuffer_device ▸ (device_simulates _).answers_eq
      ⟨init_size 0 isSp isSc le, holds_init 0 isSp isSc pos le⟩⟩

/-- A ring for three objects has four slots, and the elements wrap around in it. -/
theorem answers_eq_queue_three :
    let calls := [.doEnqueue id 3, .doDequeue id 2, .doEnqueue (· + 3) 3, .doEnqueue id 1,
      .doDequeue id 4]
    (device Nat).answers (init 0 3 true true) calls =
        (RingCall.queue Nat 4).answers (.empty ..) calls ∧
      ((device Nat).answers (init 0 3 true true) calls).map
        (List.map fun a => (a.moved, a.space)) =
          some [(3, 1), (2, 1), (3, 0), (0, 0), (4, 0)] := by
  intro calls
  exact ⟨(answers_eq_queue 0 true true (by decide) (by decide)).1 calls, by decide +kernel⟩

end RteRing

end Fuxi.Base
