import Mathlib.Order.Bounds.Basic
import Mathlib.Data.BitVec
import Fuxi.Base.ThreadLocal
import Fuxi.Lib.Machine

/-!
# `ConcurrentMaxer`

A maxer keeps the largest value of each thread in a slot of a `CompactEnumerableThreadLocal`. A
reset only counts up the version of the maxer: slots of another version do not count, and the
next value that their thread records replaces theirs. `value` starts from the least number there
is, and a slot counts only if it holds a larger one.
-/

namespace Fuxi.Base.ConcurrentMaxer

open Lib

variable {Tid : Type*}

/-- `Slot`; a `ssize_t` is a word. -/
structure Slot where
  version : Nat
  value : BitVec 64
  deriving DecidableEq

/-- `SIZE_MAX`. -/
def sizeMax : Nat := 2 ^ 64 - 1

/-- A maxer with its storage, which it shares with other maxers, and the thread ids. `recorded`
lists the values that were recorded since the last reset, each with the id of its thread. -/
structure State (Tid : Type*) where
  threadIds : ThreadIds Tid
  storage : EnumerableThreadLocal (CacheLine Slot)
  cachelineOffset : Nat
  version : Nat
  recorded : List (Nat × BitVec 64)

/-- A thread records a value or resets the maxer; it writes to the slot of another maxer in the
same storage or gets an id through another storage; or it ends. -/
inductive Move
  | record (value : BitVec 64)
  | reset
  | other (offset : Nat) (slot : Slot)
  | elsewhere
  | exit

/-- `operator<<`: what happens to the slot of the thread. -/
def Slot.record (version : Nat) (value : BitVec 64) (slot : Slot) : Slot :=
  if version ≠ slot.version then ⟨version, value⟩
  else if slot.value.slt value then { slot with value }
  else slot

namespace State

/-- What the callback of `value` does to `result` and `has_result`. -/
def larger (version : Nat) (best : BitVec 64 × Bool) (slot : Slot) : BitVec 64 × Bool :=
  if slot.version = version then
    if best.1.slt slot.value then (slot.value, true) else best
  else best

/-- The slots that `for_each` visits. -/
def slots (s : State Tid) : List Slot :=
  (s.storage.each s.threadIds.threadEnd).map fun line => line s.cachelineOffset

/-- `value`: what it returns, and `max_value` afterwards. -/
def value (s : State Tid) (maxValue : BitVec 64) : Bool × BitVec 64 :=
  let best := s.slots.foldl (larger s.version) (BitVec.intMin 64, false)
  if best.2 then (true, best.1) else (false, maxValue)

variable [DecidableEq Tid]

/-- Assign to a slot of the calling thread. -/
def setLocal (s : State Tid) (t : Tid) (offset : Nat) (f : Slot → Slot) : State Tid :=
  let current := s.threadIds.currentThreadId t
  { s with
    threadIds := current.2
    storage := s.storage.setLocal current.1 fun line =>
      Function.update line offset (f (line offset)) }

def step (s : State Tid) : Tid × Move → Option (State Tid)
  | (t, .record value) =>
    some { s.setLocal t s.cachelineOffset (Slot.record s.version value) with
      recorded := ((s.threadIds.currentThreadId t).1, value) :: s.recorded }
  | (_, .reset) => some { s with version := u64 (s.version + 1), recorded := [] }
  | (t, .other offset slot) =>
    if offset ≠ s.cachelineOffset then some (s.setLocal t offset fun _ => slot) else none
  | (t, .elsewhere) => some { s with threadIds := (s.threadIds.currentThreadId t).2 }
  | (t, .exit) => some { s with threadIds := s.threadIds.exit t }

end State

/-- A new maxer finds slots as the constructor of `Slot` leaves them, and version zero. -/
def machine (Tid : Type*) [DecidableEq Tid] : Machine (State Tid) (Tid × Move) where
  start s := s.version = 0 ∧ s.recorded = [] ∧
    ∀ i, (s.storage.element i s.cachelineOffset).version = sizeMax
  step := State.step

/-- Fewer than `2 ^ 64 - 1` resets. -/
def fewResets (_ : State Tid) (_ : Tid × Move) (s : State Tid) : Prop := s.version < sizeMax

instance (s : State Tid) (m : Tid × Move) (s' : State Tid) : Decidable (fewResets s m s') :=
  inferInstanceAs (Decidable (_ < _))

namespace State

variable {s : State Tid}

/-- The slot of a thread id. -/
def slot (s : State Tid) (i : Nat) : Slot := s.storage.element i s.cachelineOffset

/-- `value` answers for the values that were recorded since the last reset: with the largest of
them, or not at all if there are none. -/
def Reports (s : State Tid) : Prop := ∀ maxValue,
  if s.recorded = [] then s.value maxValue = (false, maxValue)
  else (s.value maxValue).1 = true ∧
    IsGreatest {x | ∃ r ∈ s.recorded, r.2.toInt = x} (s.value maxValue).2.toInt

/-- A largest value is not the least number there is, and its slot is visited. -/
def Seen (s : State Tid) : Prop := s.recorded = [] ∨
  ∃ r ∈ s.recorded, (∀ q ∈ s.recorded, q.2.toInt ≤ r.2.toInt) ∧ r.2 ≠ BitVec.intMin 64 ∧
    r.1 < s.storage.visited s.threadIds.threadEnd

/-- Slots of the current version hold the largest recorded value of their thread, and all others
are older or have not been used. -/
structure Inv (s : State Tid) : Prop where
  small : s.version < sizeMax
  old : ∀ i, (s.slot i).version ≤ s.version ∨ (s.slot i).version = sizeMax
  current : ∀ i, (s.slot i).version = s.version → (i, (s.slot i).value) ∈ s.recorded
  bound : ∀ r ∈ s.recorded, (s.slot r.1).version = s.version ∧
    r.2.toInt ≤ (s.slot r.1).value.toInt

theorem mem_slots {slot : Slot} : slot ∈ s.slots ↔
    ∃ i < s.storage.visited s.threadIds.threadEnd, s.slot i = slot := by
  simp [slots, EnumerableThreadLocal.each, State.slot]

/-- The callback takes a slot of the current version with a larger value. -/
theorem larger_spec (version : Nat) (best : BitVec 64 × Bool) (slot : Slot) :
    (slot.version = version → slot.value.toInt ≤ (larger version best slot).1.toInt) ∧
      (larger version best slot = best ∨ best.1.toInt < (larger version best slot).1.toInt ∧
        (larger version best slot).2 = true ∧ slot.version = version ∧
          slot.value = (larger version best slot).1) := by
  unfold larger
  split_ifs with same more
  · exact ⟨fun _ => le_rfl, Or.inr ⟨BitVec.slt_iff_toInt_lt.mp more, rfl, same, rfl⟩⟩
  · rw [BitVec.slt_iff_toInt_lt, not_lt] at more
    exact ⟨fun _ => more, Or.inl rfl⟩
  · exact ⟨fun eq => absurd eq same, Or.inl rfl⟩

/-- What `value` has found in some slots: the largest value above the one it started with. -/
theorem foldl_larger (version : Nat) (l : List Slot) (best : BitVec 64 × Bool) :
    let best' := l.foldl (larger version) best
    (∀ slot ∈ l, slot.version = version → slot.value.toInt ≤ best'.1.toInt) ∧
      (best' = best ∨ best.1.toInt < best'.1.toInt ∧ best'.2 = true ∧
        ∃ slot ∈ l, slot.version = version ∧ slot.value = best'.1) := by
  induction l generalizing best with
  | nil => exact ⟨by simp, Or.inl rfl⟩
  | cons slot l ih =>
    obtain ⟨first, one⟩ := larger_spec version best slot
    obtain ⟨bound, found⟩ := ih (larger version best slot)
    rw [List.foldl_cons]
    generalize larger version best slot = best₁ at *
    have le : best₁.1.toInt ≤ (l.foldl (larger version) best₁).1.toInt := by
      obtain eq | ⟨lt, -⟩ := found
      · rw [eq]
      · exact lt.le
    refine ⟨List.forall_mem_cons.mpr ⟨fun same => (first same).trans le, bound⟩, ?_⟩
    obtain eq | ⟨lt, yes, q, mem, same, here⟩ := found
    · rw [eq]
      obtain rfl | ⟨lt, yes, same, here⟩ := one
      · exact Or.inl rfl
      · exact Or.inr ⟨lt, yes, slot, List.mem_cons_self, same, here⟩
    · refine Or.inr ⟨?_, yes, q, List.mem_cons_of_mem _ mem, same, here⟩
      obtain rfl | ⟨lt', -⟩ := one
      · exact lt
      · exact lt'.trans lt

/-- `value` is right exactly if a largest value is seen. -/
theorem Inv.reports_iff (h : s.Inv) : s.Reports ↔ s.Seen := by
  obtain ⟨bound, found⟩ := foldl_larger s.version s.slots (BitVec.intMin 64, false)
  unfold Reports value
  generalize s.slots.foldl (larger s.version) (BitVec.intMin 64, false) = best at *
  by_cases none : s.recorded = []
  · refine iff_of_true (fun maxValue => ?_) (Or.inl none)
    obtain rfl | ⟨-, -, slot, mem, same, -⟩ := found
    · rw [if_pos none]
      rfl
    · obtain ⟨i, -, rfl⟩ := mem_slots.mp mem
      have := h.current i same
      rw [none] at this
      cases this
  constructor
  · intro reports
    have reports := reports 0
    rw [if_neg none] at reports
    obtain rfl | ⟨lt, yes, slot, mem, same, here⟩ := found
    · cases reports.1
    · obtain ⟨i, visited, rfl⟩ := mem_slots.mp mem
      simp only [yes, if_true] at reports
      refine Or.inr ⟨_, h.current i same, fun q mem => ?_, fun eq => ?_, visited⟩
      · rw [here]
        exact reports.2.2 ⟨q, mem, rfl⟩
      · replace eq : (s.slot i).value = BitVec.intMin 64 := eq
        rw [← here, eq] at lt
        exact lt_irrefl _ lt
  · rintro (empty | ⟨r, mem, largest, more, visited⟩) maxValue
    · exact absurd empty none
    rw [if_neg none]
    obtain ⟨same, le⟩ := h.bound r mem
    have top : (s.slot r.1).value.toInt = r.2.toInt :=
      le_antisymm (largest _ (h.current r.1 same)) le
    have seen := bound _ (mem_slots.mpr ⟨r.1, visited, rfl⟩) same
    rw [top] at seen
    obtain rfl | ⟨-, yes, slot, mem', same', here⟩ := found
    · refine absurd (BitVec.toInt_inj.mp (le_antisymm seen ?_)) more
      exact BitVec.toInt_intMin_le r.2
    · obtain ⟨i, -, rfl⟩ := mem_slots.mp mem'
      have le' := largest _ (h.current i same')
      rw [here] at le'
      simp only [yes, if_true]
      refine ⟨trivial, ⟨r, mem, le_antisymm seen le'⟩, ?_⟩
      rintro x ⟨q, mem, rfl⟩
      exact (largest q mem).trans seen

/-! ## Every history -/

variable [DecidableEq Tid]

/-- A call of `local()` changes one slot of one maxer. -/
theorem slot_setLocal (t : Tid) (offset : Nat) (f : Slot → Slot) (i : Nat) :
    (s.setLocal t offset f).slot i =
      if i = (s.threadIds.currentThreadId t).1 ∧ offset = s.cachelineOffset then f (s.slot i)
      else s.slot i := by
  simp only [slot, setLocal, EnumerableThreadLocal.setLocal, Function.update_apply]
  by_cases own : i = (s.threadIds.currentThreadId t).1
  · simp only [own, true_and, if_true, Function.update_apply, eq_comm (a := offset)]
    split_ifs with same
    · rw [same]
    · rfl
  · simp only [own, false_and, if_false]

omit [DecidableEq Tid] in
/-- After a value has been recorded, the slot has the current version. It holds the value, or the
larger one that it held in the same version. -/
theorem record_spec (version : Nat) (value : BitVec 64) (slot : Slot) :
    (slot.record version value).version = version ∧
      value.toInt ≤ (slot.record version value).value.toInt ∧
      ((slot.record version value).value = value ∨
        slot.version = version ∧ (slot.record version value).value = slot.value) ∧
      (slot.version = version → slot.value.toInt ≤ (slot.record version value).value.toInt) := by
  unfold Slot.record
  split_ifs with new more
  · exact ⟨rfl, le_rfl, Or.inl rfl, fun eq => absurd eq.symm new⟩
  · rw [ne_eq, not_not] at new
    exact ⟨new.symm, le_rfl, Or.inl rfl, fun _ => (BitVec.slt_iff_toInt_lt.mp more).le⟩
  · rw [ne_eq, not_not] at new
    rw [BitVec.slt_iff_toInt_lt, not_lt] at more
    exact ⟨new.symm, more, Or.inr ⟨new.symm, rfl⟩, fun _ => le_rfl⟩

omit [DecidableEq Tid] in
theorem Inv.record (h : s.Inv) {s' : State Tid} {id : Nat} {value : BitVec 64}
    (own : s'.slot id = (s.slot id).record s.version value)
    (others : ∀ i ≠ id, s'.slot i = s.slot i) (version : s'.version = s.version)
    (recorded : s'.recorded = (id, value) :: s.recorded) : s'.Inv := by
  obtain ⟨current, le, kept, grows⟩ := record_spec s.version value (s.slot id)
  rw [← own] at current le kept grows
  refine ⟨version ▸ h.small, fun i => ?_, fun i same => ?_, fun r mem => ?_⟩
  · rw [version]
    by_cases e : i = id
    · rw [e, current]
      exact Or.inl le_rfl
    · rw [others i e]
      exact h.old i
  · rw [recorded]
    rw [version] at same
    by_cases e : i = id
    · subst e
      obtain eq | ⟨same, eq⟩ := kept
      · rw [eq]
        exact List.mem_cons_self
      · rw [eq]
        exact List.mem_cons_of_mem _ (h.current i same)
    · rw [others i e] at same ⊢
      exact List.mem_cons_of_mem _ (h.current i same)
  · rw [recorded] at mem
    rw [version]
    obtain rfl | mem := List.mem_cons.mp mem
    · exact ⟨current, le⟩
    · obtain ⟨same, below⟩ := h.bound r mem
      by_cases e : r.1 = id
      · rw [e] at same below ⊢
        exact ⟨current, below.trans (grows same)⟩
      · rw [others _ e]
        exact ⟨same, below⟩

omit [DecidableEq Tid] in
/-- A reset leaves no slot with the version of the maxer. -/
theorem Inv.reset (h : s.Inv) (few : u64 (s.version + 1) < sizeMax) :
    { s with version := u64 (s.version + 1), recorded := [] }.Inv := by
  have small := h.small
  have next : u64 (s.version + 1) = s.version + 1 :=
    u64_of_lt (by unfold sizeMax at small; omega)
  refine ⟨few, fun i => ?_, fun i same => ?_, by simp⟩
  · have old := h.old i
    show (s.slot i).version ≤ u64 (s.version + 1) ∨ (s.slot i).version = sizeMax
    omega
  · have old := h.old i
    replace same : (s.slot i).version = u64 (s.version + 1) := same
    omega

theorem Inv.step (h : s.Inv) {m : Tid × Move} {s' : State Tid} (hs : s.step m = some s')
    (few : fewResets s m s') : s'.Inv := by
  obtain ⟨t, m⟩ := m
  cases m with
  | record value =>
    cases hs
    refine h.record (slot_setLocal t _ _ _ |>.trans (if_pos ⟨rfl, rfl⟩)) (fun i ne => ?_) rfl rfl
    exact (slot_setLocal t _ _ i).trans (if_neg fun eq => ne eq.1)
  | reset =>
    cases hs
    exact h.reset few
  | other offset slot =>
    simp only [State.step] at hs
    split_ifs at hs with ne
    cases hs
    have same : ∀ i, (s.setLocal t offset fun _ => slot).slot i = s.slot i := fun i =>
      (slot_setLocal t _ _ i).trans (if_neg fun eq => ne eq.2)
    exact ⟨h.small, fun i => (same i).symm ▸ h.old i, fun i => (same i).symm ▸ h.current i,
      fun r mem => (same r.1).symm ▸ h.bound r mem⟩
  | elsewhere =>
    cases hs
    exact ⟨h.small, h.old, h.current, h.bound⟩
  | exit =>
    cases hs
    exact ⟨h.small, h.old, h.current, h.bound⟩

/-- In every history with fewer than `2 ^ 64 - 1` resets, `value` reports the maximum of its
period exactly if nothing was recorded, or a largest value is not the least number there is and
its slot is visited. -/
theorem reports_iff_of_reach (h : (machine Tid).Reach fewResets s) : s.Reports ↔ s.Seen := by
  have inv : s.Inv := by
    refine h.inv (P := Inv) ?_ fun s m s' inv hs few => inv.step hs few
    rintro s ⟨version, none, blank⟩
    have small : s.version < sizeMax := by
      rw [version]
      decide
    refine ⟨small, fun i => Or.inr (blank i), fun i same => ?_, by simp [none]⟩
    have := blank i
    simp only [slot] at same
    omega
  exact inv.reports_iff

/-- The first maxer of a program. -/
def fresh (Tid : Type*) : State Tid where
  threadIds := ⟨.unused .uint16 fun _ => 0, [], fun _ => 0⟩
  storage := ⟨0, fun _ _ => ⟨sizeMax, 0⟩⟩
  cachelineOffset := 0
  version := 0
  recorded := []

theorem start_fresh : (machine Tid).start (fresh Tid) := ⟨rfl, rfl, fun _ => rfl⟩

/-- After a reset the value 5 of the first period no longer counts. -/
def twoPeriods : List (Bool × Move) :=
  [(true, .record 5), (false, .record 2), (true, .reset), (false, .record (-3)),
    (true, .other 1 ⟨0, 9⟩), (true, .record (-4)), (false, .exit)]

theorem reports_iff_of_reach_twoPeriods : ∃ s, (machine Bool).run (fresh Bool) twoPeriods = some s ∧
    s.value 7 = (true, -3) ∧ s.Reports := by
  have along : (machine Bool).Along fewResets (fresh Bool) twoPeriods := by decide +kernel
  have seen : ((machine Bool).run (fresh Bool) twoPeriods).map (fun s =>
      (s.value 7, s.recorded, s.storage.visited s.threadIds.threadEnd)) =
        some ((true, -3), [(0, -4), (1, -3)], 2) := by decide +kernel
  obtain ⟨s, run, reach, seen⟩ := Machine.Reach.of_along_seen (.start start_fresh) along seen
  simp only [Prod.mk.injEq] at seen
  obtain ⟨value, recorded, visited⟩ := seen
  refine ⟨s, run, value, (reports_iff_of_reach reach).mpr (Or.inr ?_)⟩
  rw [recorded, visited]
  exact ⟨(1, -3), by decide, by decide, by decide, by decide⟩

/-- The least number is recorded, and `value` says that nothing was. -/
theorem value_of_least : ∃ s, (machine Unit).run (fresh Unit) [((), .record (BitVec.intMin 64))] =
      some s ∧ (machine Unit).Reach fewResets s ∧ s.recorded = [(0, BitVec.intMin 64)] ∧
    s.value 7 = (false, 7) ∧ ¬s.Reports := by
  have along : (machine Unit).Along fewResets (fresh Unit) [((), .record (BitVec.intMin 64))] := by
    decide +kernel
  have seen : ((machine Unit).run (fresh Unit) [((), .record (BitVec.intMin 64))]).map (fun s =>
      (s.recorded, s.value 7)) = some ([(0, BitVec.intMin 64)], (false, 7)) := by decide +kernel
  obtain ⟨s, run, reach, seen⟩ := Machine.Reach.of_along_seen (.start start_fresh) along seen
  obtain ⟨recorded, value⟩ := Prod.mk.inj seen
  refine ⟨s, run, reach, recorded, value, fun reports => ?_⟩
  have reports := reports 7
  rw [recorded, value] at reports
  simp at reports

end State

end Fuxi.Base.ConcurrentMaxer
