import Mathlib.Logic.Equiv.Basic
import Mathlib.Data.List.Nodup
import Fuxi.Lib.Machine
import Fuxi.Lib.Word

/-!
# Who frees the slot array of a `ConcurrentBoundedQueue`

The slots of a queue lie in an array that the queue has allocated or in a buffer of the
caller. A flag next to the pointer says which, and the destructor of the array goes by the
flag. `SlotVector::swap` exchanges the pointers and the sizes and leaves the flags where
they are, so after a move or a swap of two queues of different kinds both flags are wrong.
-/

namespace Fuxi.Base.BoundedQueue

open Lib

/-- What `_slots` points to: the array of an `operator new`, or an outer buffer. -/
inductive SlotArray (Buf : Type*)
  | heap (id : Nat)
  | buffer (b : Buf)
  deriving DecidableEq

/-- `ConcurrentBoundedQueue::SlotVector`. -/
structure SlotVector (Buf : Type*) where
  slots : Option (SlotArray Buf) := none
  size : Nat := 0
  useOuterBuffer : Bool := false

namespace SlotVector

variable {Buf : Type*}

def swap (v w : SlotVector Buf) : SlotVector Buf × SlotVector Buf :=
  ({ v with slots := w.slots, size := w.size }, { w with slots := v.slots, size := v.size })

/-- `::std::swap` of two vectors, with the temporary one at its end: it is constructed from
`v`, and then `v` and `w` are assigned to. The move constructor and the move assignment
both swap. -/
def stdSwap (v w : SlotVector Buf) : SlotVector Buf × SlotVector Buf × SlotVector Buf :=
  let first := swap {} v
  let second := first.2.swap w
  let third := second.2.swap first.1
  (second.1, third.1, third.2)

/-- What the destructor passes to `operator delete`. -/
def deletes (v : SlotVector Buf) : List (SlotArray Buf) :=
  if v.useOuterBuffer = false then v.slots.toList else []

/-- The slots lie in an outer buffer. -/
def outer (v : SlotVector Buf) : Bool :=
  match v.slots with
  | some (.buffer _) => true
  | _ => false

end SlotVector

/-- What a queue says about its slots. -/
structure SlotQueue (Buf : Type*) where
  slots : SlotVector Buf
  slotMask : Nat
  slotBits : Nat

/-- The queue objects, how many slot arrays have been allocated, and what has been passed to
`operator delete`. -/
structure SlotState (Obj Buf : Type*) where
  queues : Obj → Option (SlotQueue Buf)
  next : Nat
  deleted : List (SlotArray Buf)

/-- No queue has been constructed. -/
def SlotState.initial {Obj Buf : Type*} : SlotState Obj Buf := ⟨fun _ => none, 0, []⟩

inductive SlotMove (Obj Buf : Type*)
  | construct (q : Obj)
  | constructWith (q : Obj) (minCapacity : Nat)
  | reserveAndClear (q : Obj) (minCapacity : Nat)
  | reserveAndClearIn (q : Obj) (b : Buf) (minCapacity : Nat)
  | moveConstruct (q other : Obj)
  | moveAssign (q other : Obj)
  | swap (q other : Obj)
  | destroy (q : Obj)

namespace SlotState

variable {Obj Buf : Type*} [DecidableEq Obj]

/-- `SlotVector::~SlotVector` of a queue. -/
def destroySlots (s : SlotState Obj Buf) (q : Obj) (v : SlotVector Buf) : SlotState Obj Buf :=
  { s with queues := Function.update s.queues q none, deleted := v.deletes ++ s.deleted }

/-- `SlotVector(size)` in a queue, which gets a new array. -/
def constructSlots (s : SlotState Obj Buf) (q : Obj) (size : Nat) : SlotState Obj Buf :=
  { s with
    queues := Function.update s.queues q
        (some ⟨⟨some (.heap s.next), size, false⟩, size - 1, Nat.log2 size⟩)
    next := s.next + 1 }

/-- `SlotVector(slot_buffer, size)` in a queue. -/
def constructSlotsIn (s : SlotState Obj Buf) (q : Obj) (b : Buf) (size : Nat) :
    SlotState Obj Buf :=
  { s with
    queues := Function.update s.queues q
        (some ⟨⟨some (.buffer b), size, true⟩, size - 1, Nat.log2 size⟩) }

/-- `reserve_and_clear(min_capacity)`; `resize` destroys the old vector and constructs the
new one, and `clear` touches the elements only. -/
def reserveAndClear (s : SlotState Obj Buf) (q : Obj) (w : SlotQueue Buf) (minCapacity : Nat) :
    SlotState Obj Buf :=
  let newCapacity := bitCeil minCapacity
  if newCapacity ≠ w.slots.size then (s.destroySlots q w.slots).constructSlots q newCapacity
  else s

/-- `reserve_and_clear(slot_buffer, min_capacity)`. -/
def reserveAndClearIn (s : SlotState Obj Buf) (q : Obj) (w : SlotQueue Buf) (b : Buf)
    (minCapacity : Nat) : SlotState Obj Buf :=
  let newCapacity := bitCeil minCapacity
  let create := !w.slots.useOuterBuffer
  if create = true ∨ newCapacity ≠ w.slots.size then
    (s.destroySlots q w.slots).constructSlotsIn q b newCapacity
  else s

/-- `ConcurrentBoundedQueue::swap`. With itself a queue gets its own slots back. -/
def swap (s : SlotState Obj Buf) (q other : Obj) (v w : SlotQueue Buf) : SlotState Obj Buf :=
  if q = other then s
  else
    let swapped := v.slots.stdSwap w.slots
    { s with
      queues := Function.update
          (Function.update s.queues q (some ⟨swapped.1, w.slotMask, w.slotBits⟩)) other
          (some ⟨swapped.2.1, v.slotMask, v.slotBits⟩)
      deleted := swapped.2.2.deletes ++ s.deleted }

def step (s : SlotState Obj Buf) : SlotMove Obj Buf → Option (SlotState Obj Buf)
  | .construct q =>
    match s.queues q with
    | none => some (s.constructSlots q 1)
    | some _ => none
  | .constructWith q minCapacity =>
    match s.queues q with
    | none =>
      let s := s.constructSlots q 1
      (s.queues q).map fun w => s.reserveAndClear q w minCapacity
    | some _ => none
  | .reserveAndClear q minCapacity =>
    (s.queues q).map fun w => s.reserveAndClear q w minCapacity
  | .reserveAndClearIn q b minCapacity =>
    (s.queues q).map fun w => s.reserveAndClearIn q w b minCapacity
  | .moveConstruct q other =>
    match s.queues q with
    | none =>
      let s := s.constructSlots q 1
      match s.queues q, s.queues other with
      | some v, some w => if q = other then none else some (s.swap q other v w)
      | _, _ => none
    | some _ => none
  | .moveAssign q other | .swap q other =>
    match s.queues q, s.queues other with
    | some v, some w => some (s.swap q other v w)
    | _, _ => none
  | .destroy q => (s.queues q).map fun w => s.destroySlots q w.slots

end SlotState

/-- Any number of queue objects and outer buffers. -/
def slotMachine (Obj Buf : Type*) [DecidableEq Obj] :
    Machine (SlotState Obj Buf) (SlotMove Obj Buf) where
  start s := s = .initial
  step := SlotState.step

/-! ## Ownership -/

variable {Obj Buf : Type*}

/-- The number of a heap array. -/
def SlotArray.heap? : SlotArray Buf → Option Nat
  | .heap id => some id
  | .buffer _ => none

@[simp] theorem SlotArray.heap?_heap (id : Nat) : (SlotArray.heap id : SlotArray Buf).heap? = some id :=
  rfl

@[simp] theorem SlotArray.heap?_buffer (b : Buf) : (SlotArray.buffer b).heap? = none := rfl

namespace SlotState

/-- The queue uses the array. -/
def Uses (s : SlotState Obj Buf) (q : Obj) (a : SlotArray Buf) : Prop :=
  ∃ w, s.queues q = some w ∧ w.slots.slots = some a

/-- The heap arrays that have been freed. -/
def freed (s : SlotState Obj Buf) : List Nat := s.deleted.filterMap SlotArray.heap?

/-- A queue frees its slot array if and only if it has allocated it: no heap array is freed
twice or while a queue uses it, every one is used or freed, and no outer buffer is passed
to `operator delete`. -/
structure Owns (s : SlotState Obj Buf) : Prop where
  once : s.freed.Nodup
  inUse : ∀ q id, s.Uses q (.heap id) → id ∉ s.freed
  kept : ∀ id < s.next, id ∈ s.freed ∨ ∃ q, s.Uses q (.heap id)
  outer : ∀ b, .buffer b ∉ s.deleted

/-- What is so whatever the flags say: a heap array is used by one queue, until that queue
gives it up. -/
structure Sole (s : SlotState Obj Buf) : Prop where
  filled : ∀ q w, s.queues q = some w → w.slots.slots ≠ none
  fresh : ∀ q id, s.Uses q (.heap id) → id < s.next
  alone : ∀ q p id, s.Uses q (.heap id) → s.Uses p (.heap id) → q = p
  old : ∀ id ∈ s.freed, id < s.next
  once : s.freed.Nodup
  inUse : ∀ q id, s.Uses q (.heap id) → id ∉ s.freed

variable {s : SlotState Obj Buf}

theorem Sole.owns_iff_kept (h : s.Sole) : s.Owns ↔
    (∀ id < s.next, id ∈ s.freed ∨ ∃ q, s.Uses q (.heap id)) ∧ ∀ b, .buffer b ∉ s.deleted :=
  ⟨fun owns => ⟨owns.kept, owns.outer⟩, fun owns => ⟨h.once, h.inUse, owns.1, owns.2⟩⟩

variable [DecidableEq Obj]

theorem uses_destroySlots {q p : Obj} {v : SlotVector Buf} {a : SlotArray Buf} :
    (s.destroySlots q v).Uses p a ↔ p ≠ q ∧ s.Uses p a := by
  by_cases h : p = q
  · subst h; simp [Uses, destroySlots]
  · simp [Uses, destroySlots, h]

theorem uses_constructSlots {q p : Obj} {size : Nat} {a : SlotArray Buf} :
    (s.constructSlots q size).Uses p a ↔ p = q ∧ a = .heap s.next ∨ p ≠ q ∧ s.Uses p a := by
  by_cases h : p = q
  · subst h; simp [Uses, constructSlots, eq_comm]
  · simp [Uses, constructSlots, h]

theorem uses_constructSlotsIn {q p : Obj} {b : Buf} {size : Nat} {a : SlotArray Buf} :
    (s.constructSlotsIn q b size).Uses p a ↔ p = q ∧ a = .buffer b ∨ p ≠ q ∧ s.Uses p a := by
  by_cases h : p = q
  · subst h; simp [Uses, constructSlotsIn, eq_comm]
  · simp [Uses, constructSlotsIn, h]

/-- A swap exchanges the arrays. -/
theorem uses_swap {q other p : Obj} {v w : SlotQueue Buf} {a : SlotArray Buf}
    (hq : s.queues q = some v) (ho : s.queues other = some w) :
    (s.swap q other v w).Uses p a ↔ s.Uses (Equiv.swap q other p) a := by
  by_cases same : q = other
  · subst same
    simp [swap]
  · by_cases hp : p = q
    · subst hp
      simp [Uses, swap, same, SlotVector.stdSwap, SlotVector.swap, ho]
    · by_cases hp' : p = other
      · subst hp'
        simp [Uses, swap, same, SlotVector.stdSwap, SlotVector.swap, hq]
      · simp [Uses, swap, same, hp, hp', Equiv.swap_apply_of_ne_of_ne]

theorem swap_deleted {q other : Obj} {v w : SlotQueue Buf} :
    (s.swap q other v w).deleted = s.deleted ∧ (s.swap q other v w).next = s.next := by
  unfold swap
  split_ifs
  · exact ⟨rfl, rfl⟩
  · exact ⟨rfl, rfl⟩

omit [DecidableEq Obj] in
theorem Uses.unique {q : Obj} {a b : SlotArray Buf} (ha : s.Uses q a) (hb : s.Uses q b) : a = b := by
  obtain ⟨v, hv, ha⟩ := ha
  obtain ⟨w, hw, hb⟩ := hb
  cases hv.symm.trans hw
  exact Option.some.inj (ha.symm.trans hb)

/-- A queue gives its slots up. No array is lost and no buffer deleted exactly if its flag
tells the truth. -/
theorem Sole.destroySlots (h : s.Sole) {q : Obj} {w : SlotQueue Buf} (hq : s.queues q = some w) :
    (s.destroySlots q w.slots).Sole ∧
      ((s.destroySlots q w.slots).Owns ↔
        s.Owns ∧ w.slots.useOuterBuffer = w.slots.outer) := by
  obtain ⟨a, ha⟩ := Option.ne_none_iff_exists'.mp (h.filled q w hq)
  have uses : s.Uses q a := ⟨w, hq, ha⟩
  -- the arrays that are freed now
  have sole : ∀ ids : List Nat, (s.destroySlots q w.slots).freed = ids ++ s.freed →
      ids.Nodup → (∀ id ∈ ids, a = .heap id) → (s.destroySlots q w.slots).Sole := by
    intro ids freed nodup mine
    refine ⟨fun p v hp => ?_, fun p id hp => ?_, fun p p' id hp hp' => ?_, fun id hid => ?_, ?_,
      fun p id hp => ?_⟩
    · by_cases same : p = q
      · simp [SlotState.destroySlots, same] at hp
      · exact h.filled p v (by simpa [SlotState.destroySlots, same] using hp)
    · exact h.fresh p id (uses_destroySlots.mp hp).2
    · exact h.alone p p' id (uses_destroySlots.mp hp).2 (uses_destroySlots.mp hp').2
    · rw [freed, List.mem_append] at hid
      obtain now | before := hid
      · exact h.fresh q id (mine id now ▸ uses)
      · exact h.old id before
    · rw [freed]
      refine nodup.append h.once fun id now before => ?_
      exact h.inUse q id (mine id now ▸ uses) before
    · obtain ⟨ne, hp⟩ := uses_destroySlots.mp hp
      rw [freed, List.mem_append]
      rintro (now | before)
      · exact ne (h.alone p q id hp (mine id now ▸ uses))
      · exact h.inUse p id hp before
  have same : (∀ id, a = .heap id → id ∈ (s.destroySlots q w.slots).freed) →
      (∀ id ∈ (s.destroySlots q w.slots).freed, id ∈ s.freed ∨ a = .heap id) →
      ((∀ id < s.next, id ∈ (s.destroySlots q w.slots).freed ∨
          ∃ p, (s.destroySlots q w.slots).Uses p (.heap id)) ↔
        ∀ id < s.next, id ∈ s.freed ∨ ∃ p, s.Uses p (.heap id)) := by
    intro given only
    have grows : ∀ id ∈ s.freed, id ∈ (s.destroySlots q w.slots).freed := fun id hid => by
      unfold SlotState.freed SlotState.destroySlots
      rw [List.filterMap_append, List.mem_append]
      exact Or.inr hid
    refine forall_congr' fun id => forall_congr' fun _ => ⟨?_, ?_⟩
    · rintro (hid | ⟨p, hp⟩)
      · exact (only id hid).imp_right fun (eq : a = .heap id) => ⟨q, eq ▸ uses⟩
      · exact Or.inr ⟨p, (uses_destroySlots.mp hp).2⟩
    · rintro (hid | ⟨p, hp⟩)
      · exact Or.inl (grows id hid)
      · by_cases hpq : p = q
        · subst hpq
          exact Or.inl (given id (uses.unique hp))
        · exact Or.inr ⟨p, uses_destroySlots.mpr ⟨hpq, hp⟩⟩
  cases a with
  | heap id =>
    cases flag : w.slots.useOuterBuffer with
    | false =>
      have freed : (s.destroySlots q w.slots).freed = id :: s.freed := by
        simp [SlotState.freed, SlotState.destroySlots, SlotVector.deletes, flag, ha]
      have sole := sole [id] freed (List.nodup_singleton id) (by simp)
      refine ⟨sole, ?_⟩
      rw [sole.owns_iff_kept, h.owns_iff_kept, show (s.destroySlots q w.slots).next = s.next from rfl,
        same (by simp [freed]) (by simp [freed, or_comm, eq_comm])]
      simp [SlotState.destroySlots, SlotVector.deletes, SlotVector.outer, flag, ha]
    | true =>
      have freed : (s.destroySlots q w.slots).freed = s.freed := by
        simp [SlotState.freed, SlotState.destroySlots, SlotVector.deletes, flag]
      refine ⟨sole [] freed List.nodup_nil (by simp), iff_of_false (fun owns => ?_) ?_⟩
      · -- the array is lost
        obtain gone | ⟨p, hp⟩ := owns.kept id (h.fresh q id uses)
        · exact h.inUse q id uses (freed ▸ gone)
        · obtain ⟨ne, hp⟩ := uses_destroySlots.mp hp
          exact ne (h.alone p q id hp uses)
      · simp [SlotVector.outer, ha]
  | buffer b =>
    have freed : (s.destroySlots q w.slots).freed = s.freed := by
      have none : w.slots.deletes.filterMap SlotArray.heap? = [] := by
        unfold SlotVector.deletes
        split_ifs
        · rw [ha]; rfl
        · rfl
      rw [SlotState.freed, SlotState.destroySlots, List.filterMap_append, none, List.nil_append]
      rfl
    have sole := sole [] freed List.nodup_nil (by simp)
    refine ⟨sole, ?_⟩
    cases flag : w.slots.useOuterBuffer with
    | false =>
      refine iff_of_false (fun owns => owns.outer b ?_) ?_
      · simp [SlotState.destroySlots, SlotVector.deletes, flag, ha]
      · simp [SlotVector.outer, ha]
    | true =>
      rw [sole.owns_iff_kept, h.owns_iff_kept, show (s.destroySlots q w.slots).next = s.next from rfl,
        same (by simp) (by simp [freed])]
      simp [SlotState.destroySlots, SlotVector.deletes, SlotVector.outer, flag, ha]

/-- A queue object without slots gets a new array. -/
theorem Sole.constructSlots (h : s.Sole) {q : Obj} (hq : s.queues q = none) (size : Nat) :
    (s.constructSlots q size).Sole ∧ ((s.constructSlots q size).Owns ↔ s.Owns) := by
  have bare : ∀ a, ¬s.Uses q a := fun a ⟨w, hw, _⟩ => by rw [hq] at hw; cases hw
  have next : (s.constructSlots q size).next = s.next + 1 := rfl
  have freed : (s.constructSlots q size).freed = s.freed := rfl
  have heap : ∀ {p : Obj} {id : Nat}, (s.constructSlots q size).Uses p (.heap id) ↔
      p = q ∧ id = s.next ∨ s.Uses p (.heap id) := by
    intro p id
    rw [uses_constructSlots, SlotArray.heap.injEq]
    refine or_congr Iff.rfl (and_iff_right_of_imp fun uses eq => bare _ (eq ▸ uses))
  have sole : (s.constructSlots q size).Sole := by
    refine ⟨fun p v hp => ?_, fun p id hp => ?_, fun p p' id hp hp' => ?_, fun id hid => ?_,
      h.once, fun p id hp => ?_⟩
    · by_cases same : p = q
      · simp only [SlotState.constructSlots, same, Function.update_self, Option.some.injEq] at hp
        rw [← hp]
        nofun
      · exact h.filled p v (by simpa [SlotState.constructSlots, same] using hp)
    · rw [next]
      obtain ⟨-, rfl⟩ | hp := heap.mp hp
      · exact Nat.lt_succ_self _
      · exact Nat.lt_succ_of_lt (h.fresh p id hp)
    · obtain ⟨rfl, rfl⟩ | old := heap.mp hp <;> obtain ⟨rfl, eq⟩ | old' := heap.mp hp'
      · rfl
      · exact absurd (h.fresh p' _ old') (Nat.lt_irrefl _)
      · exact absurd (eq ▸ h.fresh p id old) (Nat.lt_irrefl _)
      · exact h.alone p p' id old old'
    · exact Nat.lt_succ_of_lt (h.old id hid)
    · obtain ⟨-, rfl⟩ | hp := heap.mp hp
      · exact fun gone => absurd (h.old _ gone) (Nat.lt_irrefl _)
      · exact h.inUse p id hp
  refine ⟨sole, ?_⟩
  rw [sole.owns_iff_kept, h.owns_iff_kept, freed, next]
  refine and_congr_left fun _ => ⟨fun kept id lt => ?_, fun kept id lt => ?_⟩
  · refine (kept id (Nat.lt_succ_of_lt lt)).imp_right fun ⟨p, hp⟩ => ⟨p, ?_⟩
    exact (heap.mp hp).resolve_left fun new => absurd new.2 (Nat.ne_of_lt lt)
  · obtain lt | rfl := Nat.lt_succ_iff_lt_or_eq.mp lt
    · exact (kept id lt).imp_right fun ⟨p, hp⟩ => ⟨p, heap.mpr (Or.inr hp)⟩
    · exact Or.inr ⟨q, heap.mpr (Or.inl ⟨rfl, rfl⟩)⟩

/-- A queue object without slots gets a buffer. -/
theorem Sole.constructSlotsIn (h : s.Sole) {q : Obj} (hq : s.queues q = none) (b : Buf)
    (size : Nat) :
    (s.constructSlotsIn q b size).Sole ∧ ((s.constructSlotsIn q b size).Owns ↔ s.Owns) := by
  have bare : ∀ a, ¬s.Uses q a := fun a ⟨w, hw, _⟩ => by rw [hq] at hw; cases hw
  have heap : ∀ {p : Obj} {id : Nat}, (s.constructSlotsIn q b size).Uses p (.heap id) ↔
      s.Uses p (.heap id) := by
    intro p id
    rw [uses_constructSlotsIn]
    simp only [reduceCtorEq, and_false, false_or]
    exact and_iff_right_of_imp fun uses eq => bare _ (eq ▸ uses)
  have sole : (s.constructSlotsIn q b size).Sole := by
    refine ⟨fun p v hp => ?_, fun p id hp => h.fresh p id (heap.mp hp),
      fun p p' id hp hp' => h.alone p p' id (heap.mp hp) (heap.mp hp'), h.old, h.once,
      fun p id hp => h.inUse p id (heap.mp hp)⟩
    by_cases same : p = q
    · simp only [SlotState.constructSlotsIn, same, Function.update_self, Option.some.injEq] at hp
      rw [← hp]
      nofun
    · exact h.filled p v (by simpa [SlotState.constructSlotsIn, same] using hp)
  refine ⟨sole, ?_⟩
  rw [sole.owns_iff_kept, h.owns_iff_kept]
  simp only [heap]
  exact Iff.rfl

/-- A swap loses nothing and deletes nothing. -/
theorem Sole.swap (h : s.Sole) {q other : Obj} {v w : SlotQueue Buf} (hq : s.queues q = some v)
    (ho : s.queues other = some w) :
    (s.swap q other v w).Sole ∧ ((s.swap q other v w).Owns ↔ s.Owns) := by
  have uses : ∀ p a, (s.swap q other v w).Uses p a ↔ s.Uses (Equiv.swap q other p) a :=
    fun p a => uses_swap hq ho
  obtain ⟨deleted, next⟩ : (s.swap q other v w).deleted = s.deleted ∧ _ := swap_deleted
  have freed : (s.swap q other v w).freed = s.freed :=
    congrArg (List.filterMap SlotArray.heap?) deleted
  have sole : (s.swap q other v w).Sole := by
    refine ⟨fun p x hp empty => ?_, fun p id hp => ?_, fun p p' id hp hp' => ?_, fun id hid => ?_,
      freed ▸ h.once, fun p id hp => ?_⟩
    · have at_ := h.filled q v hq
      have at_' := h.filled other w ho
      unfold SlotState.swap at hp
      split_ifs at hp with same
      · exact h.filled p x hp empty
      · by_cases hp' : p = other
        · subst hp'
          simp only [Function.update_self, Option.some.injEq] at hp
          exact at_ (by simpa [← hp, SlotVector.stdSwap, SlotVector.swap] using empty)
        · by_cases hp'' : p = q
          · subst hp''
            simp only [Function.update_of_ne hp', Function.update_self, Option.some.injEq] at hp
            exact at_' (by simpa [← hp, SlotVector.stdSwap, SlotVector.swap] using empty)
          · simp only [Function.update_of_ne hp', Function.update_of_ne hp''] at hp
            exact h.filled p x hp empty
    · rw [next]
      exact h.fresh _ id ((uses p _).mp hp)
    · exact (Equiv.swap q other).injective (h.alone _ _ id ((uses p _).mp hp) ((uses p' _).mp hp'))
    · rw [next]
      exact h.old id (freed ▸ hid)
    · rw [freed]
      exact h.inUse _ id ((uses p _).mp hp)
  refine ⟨sole, ?_⟩
  rw [sole.owns_iff_kept, h.owns_iff_kept, freed, next, deleted]
  simp only [uses]
  have exchange : ∀ a, (∃ p, s.Uses (Equiv.swap q other p) a) ↔ ∃ p, s.Uses p a := fun a =>
    (Equiv.swap q other).exists_congr_left.trans (by simp)
  simp only [exchange]

/-! ## Runs -/

/-- The vector that a call destroys. -/
def dropped (s : SlotState Obj Buf) : SlotMove Obj Buf → Option (SlotVector Buf)
  | .destroy q => (s.queues q).map SlotQueue.slots
  | .reserveAndClear q minCapacity => do
    let w ← s.queues q
    if bitCeil minCapacity ≠ w.slots.size then some w.slots else none
  | .reserveAndClearIn q _ minCapacity => do
    let w ← s.queues q
    if w.slots.useOuterBuffer = false ∨ bitCeil minCapacity ≠ w.slots.size then some w.slots
    else none
  | _ => none

omit [DecidableEq Obj] in
/-- After `reserve_and_clear(slot_buffer, n)` the slots are in that buffer. -/
def inBuffer (_ : SlotState Obj Buf) (m : SlotMove Obj Buf) (s' : SlotState Obj Buf) : Prop :=
  match m with
  | .reserveAndClearIn q b _ => s'.Uses q (.buffer b)
  | _ => True

/-- The flag of a vector that is destroyed tells the truth. -/
def truthful (s : SlotState Obj Buf) (m : SlotMove Obj Buf) (_ : SlotState Obj Buf) : Prop :=
  ∀ v ∈ s.dropped m, v.useOuterBuffer = v.outer

/-- A queue that keeps its slots in `reserve_and_clear(slot_buffer, n)`, since they are said
to be in an outer buffer and are as many, has them in this buffer already. -/
def sameBuffer (s : SlotState Obj Buf) (m : SlotMove Obj Buf) (_ : SlotState Obj Buf) : Prop :=
  match m with
  | .reserveAndClearIn q b minCapacity => ∀ w ∈ s.queues q, w.slots.useOuterBuffer = true →
      bitCeil minCapacity = w.slots.size → w.slots.slots = some (.buffer b)
  | _ => True

variable {s' : SlotState Obj Buf} {m : SlotMove Obj Buf}

theorem Sole.reserveAndClear (h : s.Sole) {q : Obj} {w : SlotQueue Buf} (hq : s.queues q = some w)
    (minCapacity : Nat) : (s.reserveAndClear q w minCapacity).Sole ∧
      ((s.reserveAndClear q w minCapacity).Owns ↔ s.Owns ∧
        (bitCeil minCapacity ≠ w.slots.size → w.slots.useOuterBuffer = w.slots.outer)) := by
  unfold SlotState.reserveAndClear
  simp only
  split_ifs with resize
  · obtain ⟨sole, owns⟩ := h.destroySlots hq
    obtain ⟨sole', owns'⟩ :=
      sole.constructSlots (q := q) (Function.update_self ..) (bitCeil minCapacity)
    exact ⟨sole', by rw [owns', owns]; simp [resize]⟩
  · exact ⟨h, by simp [resize]⟩

theorem Sole.reserveAndClearIn (h : s.Sole) {q : Obj} {w : SlotQueue Buf}
    (hq : s.queues q = some w) (b : Buf) (minCapacity : Nat) :
    (s.reserveAndClearIn q w b minCapacity).Sole ∧
      ((s.reserveAndClearIn q w b minCapacity).Owns ↔ s.Owns ∧
        (w.slots.useOuterBuffer = false ∨ bitCeil minCapacity ≠ w.slots.size →
          w.slots.useOuterBuffer = w.slots.outer)) := by
  unfold SlotState.reserveAndClearIn
  simp only [Bool.not_eq_true']
  split_ifs with resize
  · obtain ⟨sole, owns⟩ := h.destroySlots hq
    obtain ⟨sole', owns'⟩ :=
      sole.constructSlotsIn (q := q) (Function.update_self ..) b (bitCeil minCapacity)
    exact ⟨sole', by rw [owns', owns]; simp [resize]⟩
  · exact ⟨h, by simp [resize]⟩

theorem uses_reserveAndClearIn {q : Obj} {w : SlotQueue Buf} (hq : s.queues q = some w) (b : Buf)
    (minCapacity : Nat) : (s.reserveAndClearIn q w b minCapacity).Uses q (.buffer b) ↔
      (w.slots.useOuterBuffer = true → bitCeil minCapacity = w.slots.size →
        w.slots.slots = some (.buffer b)) := by
  unfold SlotState.reserveAndClearIn
  simp only [Bool.not_eq_true']
  split_ifs with resize
  · refine iff_of_true (uses_constructSlotsIn.mpr (Or.inl ⟨rfl, rfl⟩)) fun flag same => ?_
    rw [flag] at resize
    simp [same] at resize
  · simp only [not_or, Bool.not_eq_false, ne_eq, not_not] at resize
    simp [Uses, hq, resize.1, resize.2]

/-- One step. -/
theorem Sole.step (h : s.Sole) (hs : s.step m = some s') :
    s'.Sole ∧ (s'.Owns ↔ s.Owns ∧ s.truthful m s') ∧ (s.inBuffer m s' ↔ s.sameBuffer m s') := by
  have calm : s.dropped m = none → (s.Owns ∧ s.truthful m s' ↔ s.Owns) := fun none =>
    and_iff_left fun v hv => by rw [none] at hv; cases hv
  cases m with
  | construct q =>
    simp only [SlotState.step] at hs
    split at hs <;> cases hs
    rename_i hq
    obtain ⟨sole, owns⟩ := h.constructSlots hq 1
    exact ⟨sole, by rw [owns, calm rfl], Iff.rfl⟩
  | constructWith q minCapacity =>
    simp only [SlotState.step] at hs
    split at hs
    · rename_i hq
      obtain ⟨w, hw, rfl⟩ := Option.map_eq_some_iff.mp hs
      obtain ⟨sole, owns⟩ := h.constructSlots hq 1
      obtain ⟨sole', owns'⟩ := sole.reserveAndClear hw minCapacity
      refine ⟨sole', ?_, Iff.rfl⟩
      rw [owns', owns, calm rfl]
      refine and_iff_left fun _ => ?_
      simp only [SlotState.constructSlots, Function.update_self, Option.some.injEq] at hw
      rw [← hw]
      rfl
    · cases hs
  | reserveAndClear q minCapacity =>
    obtain ⟨w, hw, rfl⟩ := Option.map_eq_some_iff.mp hs
    obtain ⟨sole, owns⟩ := h.reserveAndClear hw minCapacity
    refine ⟨sole, ?_, Iff.rfl⟩
    rw [owns]
    refine and_congr_right fun _ => ?_
    simp only [truthful, dropped, hw, Option.bind_eq_bind, Option.bind_some]
    split_ifs with resize <;> simp [resize]
  | reserveAndClearIn q b minCapacity =>
    obtain ⟨w, hw, rfl⟩ := Option.map_eq_some_iff.mp hs
    obtain ⟨sole, owns⟩ := h.reserveAndClearIn hw b minCapacity
    refine ⟨sole, ?_, ?_⟩
    · rw [owns]
      refine and_congr_right fun _ => ?_
      simp only [truthful, dropped, hw, Option.bind_eq_bind, Option.bind_some]
      split_ifs with resize <;> simp [resize]
    · simp only [inBuffer, sameBuffer, hw, Option.mem_def, Option.some.injEq, forall_eq']
      exact uses_reserveAndClearIn hw b minCapacity
  | moveConstruct q other =>
    simp only [SlotState.step] at hs
    split at hs
    · rename_i hq
      obtain ⟨sole, owns⟩ := h.constructSlots hq 1
      split at hs
      · rename_i hv hw
        split_ifs at hs
        cases hs
        obtain ⟨sole', owns'⟩ := sole.swap hv hw
        exact ⟨sole', by rw [owns', owns, calm rfl], Iff.rfl⟩
      · cases hs
    · cases hs
  | moveAssign q other | swap q other =>
    simp only [SlotState.step] at hs
    split at hs
    · rename_i hv hw
      cases hs
      obtain ⟨sole, owns⟩ := h.swap hv hw
      exact ⟨sole, by rw [owns, calm rfl], Iff.rfl⟩
    · cases hs
  | destroy q =>
    obtain ⟨w, hw, rfl⟩ := Option.map_eq_some_iff.mp hs
    obtain ⟨sole, owns⟩ := h.destroySlots hw
    refine ⟨sole, ?_, Iff.rfl⟩
    rw [owns]
    refine and_congr_right fun _ => ?_
    simp [truthful, dropped, hw]

end SlotState

theorem SlotState.not_uses_initial {Obj Buf : Type*} (q : Obj) (a : SlotArray Buf) :
    ¬(initial : SlotState Obj Buf).Uses q a := by
  rintro ⟨w, hw, -⟩
  cases hw

theorem SlotState.sole_initial {Obj Buf : Type*} : (initial : SlotState Obj Buf).Sole where
  filled _ _ := nofun
  fresh q _ uses := absurd uses (not_uses_initial q _)
  alone q _ _ uses := absurd uses (not_uses_initial q _)
  old _ := nofun
  once := List.nodup_nil
  inUse q _ uses := absurd uses (not_uses_initial q _)

theorem SlotState.owns_initial {Obj Buf : Type*} : (initial : SlotState Obj Buf).Owns :=
  sole_initial.owns_iff_kept.mpr ⟨fun _ lt => absurd lt (Nat.not_lt_zero _), fun _ => nofun⟩

/-- In every run, the queues free exactly the slot arrays that they have allocated and keep
their slots in the buffer of the last `reserve_and_clear(slot_buffer, n)` if and only if the
flag of every vector that is destroyed tells the truth and no `reserve_and_clear` with a
buffer finds as many slots in another outer buffer. -/
theorem SlotState.owns_iff {Obj Buf : Type*} [DecidableEq Obj] {moves : List (SlotMove Obj Buf)}
    {s : SlotState Obj Buf} (run : (slotMachine Obj Buf).run initial moves = some s) :
    s.Owns ∧ (slotMachine Obj Buf).Along inBuffer initial moves ↔
      (slotMachine Obj Buf).Along (fun s m s' => s.truthful m s' ∧ s.sameBuffer m s')
        initial moves := by
  have along := Machine.Along.of_run run
  rw [Machine.Along.and_iff]
  refine and_congr ?_ ?_
  · rw [along.holds_iff (I := Sole) (P := Owns) run sole_initial fun s m s' inv hs _ =>
      ⟨(inv.step hs).1, (inv.step hs).2.1⟩]
    exact and_iff_right owns_initial
  · exact along.congr sole_initial fun s m s' inv hs _ => ⟨(inv.step hs).1, (inv.step hs).2.2⟩

/-- Slots change hands between queues of one kind only: both on the heap or both in buffers. -/
def SlotState.alike {Obj Buf : Type*} (s : SlotState Obj Buf) (m : SlotMove Obj Buf)
    (_ : SlotState Obj Buf) : Prop :=
  match m with
  | .moveConstruct _ other => ∀ w ∈ s.queues other, w.slots.useOuterBuffer = false
  | .moveAssign q other | .swap q other => ∀ v ∈ s.queues q, ∀ w ∈ s.queues other,
      v.slots.useOuterBuffer = w.slots.useOuterBuffer
  | _ => True

/-- All flags tell the truth. -/
def SlotState.Frank {Obj Buf : Type*} (s : SlotState Obj Buf) : Prop :=
  ∀ q w, s.queues q = some w → w.slots.useOuterBuffer = w.slots.outer

section Frank

variable {Obj Buf : Type*} [DecidableEq Obj] {s s' : SlotState Obj Buf}

theorem SlotState.Frank.update {next : Nat} {deleted : List (SlotArray Buf)} (h : s.Frank) (q : Obj)
    {x : Option (SlotQueue Buf)} (frank : ∀ w ∈ x, w.slots.useOuterBuffer = w.slots.outer) :
    Frank ⟨Function.update s.queues q x, next, deleted⟩ := by
  intro p w hp
  by_cases hpq : p = q
  · subst hpq
    exact frank w (by simpa using hp)
  · exact h p w (by simpa [hpq] using hp)

theorem SlotState.Frank.swap (h : s.Frank) {q other : Obj} {v w : SlotQueue Buf}
    (hq : s.queues q = some v) (ho : s.queues other = some w)
    (same : v.slots.useOuterBuffer = w.slots.useOuterBuffer) : (s.swap q other v w).Frank := by
  have hv := h q v hq
  have hw := h other w ho
  unfold SlotState.swap
  split_ifs
  · exact h
  · refine Frank.update (s := ⟨Function.update s.queues q _, s.next, s.deleted⟩) ?_ other ?_
    · refine h.update q ?_
      rintro _ ⟨rfl⟩
      exact same.trans hw
    · rintro _ ⟨rfl⟩
      exact same.symm.trans hv

/-- One step between queues of one kind. -/
theorem SlotState.Frank.step {m : SlotMove Obj Buf} (h : s.Frank) (side : s.alike m s')
    (hs : s.step m = some s') : s'.Frank ∧ s.truthful m s' := by
  have dropped : s.truthful m s' := by
    intro v hv
    cases m with
    | destroy q =>
      obtain ⟨w, hw, rfl⟩ := Option.map_eq_some_iff.mp hv
      exact h q w hw
    | reserveAndClear q n | reserveAndClearIn q b n =>
      obtain ⟨w, hw, hv⟩ := Option.bind_eq_some_iff.mp hv
      split_ifs at hv
      cases hv
      exact h q w hw
    | construct q | constructWith q n | moveConstruct q p | moveAssign q p | swap q p => cases hv
  refine ⟨?_, dropped⟩
  have fresh : ∀ {s : SlotState Obj Buf} q size, s.Frank → (s.constructSlots q size).Frank :=
    fun q size h => h.update q (by rintro _ ⟨rfl⟩; rfl)
  have reserve : ∀ {s : SlotState Obj Buf} q w n, s.Frank → (s.reserveAndClear q w n).Frank := by
    intro s q w n h
    unfold SlotState.reserveAndClear
    simp only
    split_ifs
    · exact fresh q _ (h.update q fun _ => nofun)
    · exact h
  cases m with
  | construct q =>
    simp only [SlotState.step] at hs
    split at hs <;> cases hs
    exact fresh q 1 h
  | constructWith q n =>
    simp only [SlotState.step] at hs
    split at hs
    · obtain ⟨w, -, rfl⟩ := Option.map_eq_some_iff.mp hs
      exact reserve q w n (fresh q 1 h)
    · cases hs
  | reserveAndClear q n =>
    obtain ⟨w, -, rfl⟩ := Option.map_eq_some_iff.mp hs
    exact reserve q w n h
  | reserveAndClearIn q b n =>
    obtain ⟨w, -, rfl⟩ := Option.map_eq_some_iff.mp hs
    unfold SlotState.reserveAndClearIn
    simp only
    split_ifs
    · exact Frank.update (s := s.destroySlots q w.slots) (h.update q fun _ => nofun) q
        (by rintro _ ⟨rfl⟩; rfl)
    · exact h
  | moveConstruct q other =>
    simp only [SlotState.step] at hs
    split at hs
    · split at hs
      · rename_i v w hv hw
        split_ifs at hs with self
        cases hs
        refine (fresh q 1 h).swap hv hw ?_
        simp only [SlotState.constructSlots, Function.update_self, Option.some.injEq] at hv
        have at_ : s.queues other = some w := by
          simpa [SlotState.constructSlots, Ne.symm self] using hw
        rw [← hv, side w at_]
      · cases hs
    · cases hs
  | moveAssign q other | swap q other =>
    simp only [SlotState.step] at hs
    split at hs
    · rename_i hv hw
      cases hs
      exact h.swap hv hw (side _ hv _ hw)
    · cases hs
  | destroy q =>
    obtain ⟨w, -, rfl⟩ := Option.map_eq_some_iff.mp hs
    exact h.update q fun _ => nofun

/-- While slots change hands between queues of one kind only, all flags tell the truth. -/
theorem SlotState.truthful_of_alike {moves : List (SlotMove Obj Buf)}
    (along : (slotMachine Obj Buf).Along alike initial moves) :
    (slotMachine Obj Buf).Along truthful initial moves :=
  along.imp (I := Frank) (fun _ _ => nofun) fun _ _ _ frank hs side => frank.step side hs

end Frank

instance {Obj Buf : Type*} (s s' : SlotState Obj Buf) (m : SlotMove Obj Buf) :
    Decidable (s.truthful m s') :=
  inferInstanceAs (Decidable (∀ v ∈ s.dropped m, _))

instance {Obj Buf : Type*} [DecidableEq Buf] (s s' : SlotState Obj Buf) (m : SlotMove Obj Buf) :
    Decidable (s.sameBuffer m s') :=
  match m with
  | .reserveAndClearIn q _ _ => inferInstanceAs (Decidable (∀ w ∈ s.queues q, _))
  | .construct _ | .constructWith _ _ | .reserveAndClear _ _ | .moveConstruct _ _ | .moveAssign _ _
  | .swap _ _ | .destroy _ => .isTrue trivial

/-- Two queues on the heap are swapped, one of them is moved into a buffer, and both are
destroyed. -/
def swapThenBuffer : List (SlotMove Nat Nat) :=
  [.constructWith 0 8, .construct 1, .swap 0 1, .reserveAndClearIn 1 9 4, .reserveAndClearIn 1 9 3,
    .destroy 0, .destroy 1]

theorem SlotState.owns_iff_swapThenBuffer :
    ∃ s, (slotMachine Nat Nat).run initial swapThenBuffer = some s ∧ s.next = 3 ∧
      s.Owns ∧ (slotMachine Nat Nat).Along inBuffer initial swapThenBuffer := by
  obtain ⟨s, run, next⟩ := Option.map_eq_some_iff.mp
    (show ((slotMachine Nat Nat).run initial swapThenBuffer).map SlotState.next = some 3 by
      decide +kernel)
  exact ⟨s, run, next, (owns_iff run).mpr (by decide +kernel)⟩

/-- A queue in a buffer is moved from: the new queue passes the buffer to `operator delete`,
and the old one loses the array that it has got in exchange. And a queue that is given
another buffer of the same size stays in the first one. -/
theorem SlotState.move_deletes_buffer :
    (∃ s : SlotState Nat Nat, (slotMachine Nat Nat).run initial
        [.construct 0, .reserveAndClearIn 0 9 4, .moveConstruct 1 0, .destroy 1, .destroy 0] = some s ∧
      .buffer 9 ∈ s.deleted ∧ 1 < s.next ∧ 1 ∉ s.freed ∧ s.queues 0 = none ∧ s.queues 1 = none) ∧
    ∃ s : SlotState Nat Nat, (slotMachine Nat Nat).run initial
        [.construct 0, .reserveAndClearIn 0 9 4, .reserveAndClearIn 0 8 4] = some s ∧
      ¬s.Uses 0 (.buffer 8) := by
  refine ⟨⟨_, rfl, ?_⟩, ⟨_, rfl, ?_⟩⟩
  · refine ⟨by decide, by decide, by decide, rfl, rfl⟩
  · rintro ⟨w, hw, here⟩
    cases hw
    cases here

end Fuxi.Base.BoundedQueue
