import Mathlib.Data.List.Range
import Fuxi.Base.IdAllocator

/-!
# An `IdAllocator` that is called once at a time

When calls do not overlap, no compare-exchange fails for good and every call is a function of
the words of the allocator. The values that are in use and those on the free list are together
the values below `next_value`, each of them once.
-/

namespace Fuxi.Base.IdAllocator

open Lib

variable {Tid : Type*} {T : IdType}

/-- The members of the class. -/
structure Ids where
  nextValue : Nat
  freeHead : VersionedValue
  freeNextValue : Nat → Nat

namespace Ids

/-- A new allocator; `blank` is what `_free_next_value` holds where nothing is stored. -/
def unused (T : IdType) (blank : Nat → Nat) : Ids where
  nextValue := 0
  freeHead := ⟨freeListTail T, 0⟩
  freeNextValue := blank

def allocate (T : IdType) (s : Ids) : VersionedValue × Ids :=
  if s.freeHead.value ≠ freeListTail T then
    (s.freeHead,
      { s with
        freeHead := ⟨s.freeNextValue s.freeHead.value, s.freeHead.version⟩
        freeNextValue := Function.update s.freeNextValue s.freeHead.value (activeFlag T) })
  else
    (⟨s.nextValue, 0⟩,
      { s with
        nextValue := (s.nextValue + 1) % T.size
        freeNextValue := Function.update s.freeNextValue s.nextValue (activeFlag T) })

def deallocate (T : IdType) (s : Ids) (value : Nat) : Ids :=
  { s with
    freeHead := ⟨value, (s.freeHead.version + 1) % T.size⟩
    freeNextValue := Function.update s.freeNextValue value s.freeHead.value }

end Ids

/-! ## Calls that run alone -/

section Alone

variable [DecidableEq Tid] {blank : Nat → Nat} {s : State Tid} {t : Tid}

def State.ids (s : State Tid) : Ids := ⟨s.nextValue, s.freeHead, s.freeNextValue⟩

/-- The thread is back outside, and only the words of the allocator and what it holds changed. -/
structure State.Returns (s : State Tid) (t : Tid) (s' : State Tid) (ids : Ids)
    (held : List VersionedValue) : Prop where
  ids : s'.ids = ids
  pc : s'.pc = s.pc
  held : s'.held = Function.update s.held t held

/-- Nobody else moves while a thread allocates. -/
theorem allocate_alone (idle : s.pc t = .idle) :
    ∃ moves s', (machine Tid T blank).run s ((t, .allocate) :: moves) = some s' ∧
      s.Returns t s' (s.ids.allocate T).2 ((s.ids.allocate T).1 :: s.held t) := by
  by_cases none : s.freeHead.value = freeListTail T
  · have alone : s.ids.allocate T = (⟨s.nextValue, 0⟩, _) := if_neg (not_not.mpr none)
    rw [alone]
    refine ⟨[(t, .step), (t, .step), (t, .step)], _, by
      simp [machine, State.step, State.advance, State.look, State.goto, State.see, idle, none]
      rfl, ⟨rfl, ?_, ?_⟩⟩
    · simp [State.receive, State.store, State.goto, ← idle]
    · simp [State.receive, State.store, State.goto]
  · have alone : s.ids.allocate T = (s.freeHead, _) := if_pos none
    rw [alone]
    refine ⟨[(t, .step), (t, .step), (t, .step), (t, .step)], _, by
      simp [machine, State.step, State.advance, State.look, State.goto, State.see, idle, none]
      rfl, ⟨rfl, ?_, ?_⟩⟩
    · simp [State.receive, State.store, State.goto, ← idle]
    · simp [State.receive, State.store, State.goto]

/-- Nobody else moves while a thread deallocates. -/
theorem deallocate_alone (idle : s.pc t = .idle) {id : VersionedValue} (mem : id ∈ s.held t) :
    ∃ moves s', (machine Tid T blank).run s ((t, .deallocate id) :: moves) = some s' ∧
      s.Returns t s' (s.ids.deallocate T id.value) ((s.held t).erase id) := by
  refine ⟨[(t, .step), (t, .step), (t, .step)], _, by
    simp [machine, State.step, State.advance, State.goto, State.see, State.store, idle, mem]
    rfl, ⟨rfl, ?_, ?_⟩⟩
  · simp [← idle]
  · simp

end Alone

/-! ## The values in use -/

namespace Ids

/-- The allocator has given out `used`: together with the values on the free list these are
the values below `next_value`. -/
def Serves (T : IdType) (s : Ids) (used : List Nat) : Prop :=
  s.nextValue < T.size ∧ ∃ free,
    Links s.freeNextValue (freeListTail T) s.freeHead.value free ∧
      (used ++ free).Perm (List.range s.nextValue)

namespace Serves

variable {s : Ids} {used : List Nat} {value : Nat}

theorem start (blank : Nat → Nat) : (unused T blank).Serves T [] :=
  ⟨Nat.lt_of_lt_of_le Nat.zero_lt_two (by cases T <;> decide), [], rfl, List.Perm.refl _⟩

theorem perm (h : s.Serves T used) {used' : List Nat} (same : used.Perm used') :
    s.Serves T used' := by
  obtain ⟨small, free, linked, all⟩ := h
  exact ⟨small, free, linked, (same.symm.append_right free).trans all⟩

theorem nodup (h : s.Serves T used) : used.Nodup := by
  obtain ⟨-, free, -, all⟩ := h
  exact (List.nodup_append.mp (all.nodup_iff.mpr List.nodup_range)).1

theorem lt (h : s.Serves T used) (mem : value ∈ used) : value < s.nextValue := by
  obtain ⟨-, free, -, all⟩ := h
  exact List.mem_range.mp (all.subset (List.mem_append_left free mem))

theorem length_le (h : s.Serves T used) : used.length ≤ s.nextValue := by
  obtain ⟨-, free, -, all⟩ := h
  have := all.length_eq
  rw [List.length_append, List.length_range] at this
  omega

/-- `allocate` returns a value that is not in use. It takes `next_value` only if all values
below are in use. -/
theorem allocate (h : s.Serves T used) (room : used.length + 1 < T.size) :
    (s.allocate T).1.value ∉ used ∧
      (s.allocate T).2.Serves T ((s.allocate T).1.value :: used) ∧
        s.nextValue ≤ (s.allocate T).2.nextValue := by
  obtain ⟨small, free, linked, all⟩ := h
  have nodup := all.nodup_iff.mpr List.nodup_range
  unfold Ids.allocate
  split_ifs with some
  · obtain ⟨rest, rfl, below⟩ := linked.exists_cons some
    have split : (s.freeHead.value :: (used ++ rest)).Perm (used ++ s.freeHead.value :: rest) :=
      List.perm_middle.symm
    obtain ⟨fresh, -⟩ := List.nodup_cons.mp (split.nodup_iff.mpr nodup)
    rw [List.mem_append, not_or] at fresh
    refine ⟨fresh.1, ⟨small, rest, ?_, split.trans all⟩, le_rfl⟩
    refine below.congr fun x mem => Function.update_of_ne ?_ _ _
    rintro rfl
    exact fresh.2 mem
  · rw [not_not] at some
    cases free with
    | cons x xs => exact absurd (linked.1 ▸ some) linked.2.1
    | nil =>
      rw [List.append_nil] at all
      have full := all.length_eq
      rw [List.length_range] at full
      have wrap : (s.nextValue + 1) % T.size = s.nextValue + 1 := Nat.mod_eq_of_lt (by omega)
      have fresh : s.nextValue ∉ used := fun mem => by simpa using all.subset mem
      simp only [wrap]
      refine ⟨fresh, ⟨?_, [], some, ?_⟩, Nat.le_succ _⟩
      · show s.nextValue + 1 < T.size
        omega
      · rw [List.append_nil, List.range_succ]
        exact (all.cons _).trans (List.perm_append_singleton _ _).symm

/-- `deallocate` puts a value that is in use on top of the free list. -/
theorem deallocate (h : s.Serves T used) (mem : value ∈ used) :
    (s.deallocate T value).Serves T (used.erase value) := by
  have small := h.1
  have lt := h.lt mem
  obtain ⟨-, free, linked, all⟩ := h
  have nodup := all.nodup_iff.mpr List.nodup_range
  have fresh : value ∉ free := fun mem' => (List.nodup_append.mp nodup).2.2 _ mem _ mem' rfl
  have ne : value ≠ freeListTail T := by
    unfold freeListTail
    omega
  refine ⟨small, value :: free, Links.cons ?_ ne (Function.update_self ..), ?_⟩
  · refine linked.congr fun x mem' => Function.update_of_ne ?_ _ _
    rintro rfl
    exact fresh mem'
  · exact List.perm_middle.trans (((List.perm_cons_erase mem).symm.append_right free).trans all)

/-! Owners that have one value each -/

variable {O : Type*} [DecidableEq O] {owners : List O} {valueOf : O → Nat} {o : O}

theorem map_cons_update (new : o ∉ owners) (value : Nat) :
    (o :: owners).map (Function.update valueOf o value) = value :: owners.map valueOf := by
  rw [List.map_cons, Function.update_self]
  congr 1
  refine List.map_congr_left fun u mem => Function.update_of_ne ?_ _ _
  rintro rfl
  exact new mem

theorem map_erase_perm (mem : o ∈ owners) :
    ((owners.map valueOf).erase (valueOf o)).Perm ((owners.erase o).map valueOf) := by
  have back := List.mem_map_of_mem (f := valueOf) mem
  have one : (valueOf o :: (owners.map valueOf).erase (valueOf o)).Perm
      (valueOf o :: (owners.erase o).map valueOf) :=
    (List.perm_cons_erase back).symm.trans ((List.perm_cons_erase mem).map valueOf)
  exact one.cons_inv

/-- A new owner gets a value that no other owner has. -/
theorem enter (h : s.Serves T (owners.map valueOf)) (new : o ∉ owners)
    (room : owners.length + 1 < T.size) :
    (s.allocate T).1.value ∉ owners.map valueOf ∧
      (s.allocate T).2.Serves T
          ((o :: owners).map (Function.update valueOf o (s.allocate T).1.value)) ∧
        s.nextValue ≤ (s.allocate T).2.nextValue := by
  rw [map_cons_update new]
  exact h.allocate (by rwa [List.length_map])

/-- An owner gives its value back. -/
theorem leave (h : s.Serves T (owners.map valueOf)) (mem : o ∈ owners) :
    (s.deallocate T (valueOf o)).Serves T ((owners.erase o).map valueOf) :=
  (h.deallocate (List.mem_map_of_mem mem)).perm (map_erase_perm mem)

end Serves

end Ids

end Fuxi.Base.IdAllocator
