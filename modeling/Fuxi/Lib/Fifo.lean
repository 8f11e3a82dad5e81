import Mathlib.Data.List.Basic
import Mathlib.Data.List.TakeDrop
import Mathlib.Data.Int.ModEq
import Mathlib.Tactic.TypeStar

/-!
# Bounded queues

The elements of a queue from the oldest one on, never more than its capacity. A queue accepts
what fits and drops its oldest elements. An array that stores it in turns has a slot for each of
them.
-/

namespace Fuxi.Lib

@[ext] structure Fifo (α : Type*) (capacity : Nat) where
  items : List α
  fits : items.length ≤ capacity

namespace Fifo

variable {α : Type*} {c : Nat}

/-- The empty queue. -/
def empty (α : Type*) (capacity : Nat) : Fifo α capacity := ⟨[], Nat.zero_le _⟩

/-- How many elements are missing to the capacity. -/
def free (q : Fifo α c) : Nat := c - q.items.length

/-- As many of the elements as fit are appended. -/
def accept (q : Fifo α c) (xs : List α) : Fifo α c where
  items := q.items ++ xs.take q.free
  fits := by
    have := q.fits
    simp only [free, List.length_append, List.length_take]
    omega

/-- The oldest elements are removed. -/
def drop (q : Fifo α c) (n : Nat) : Fifo α c where
  items := q.items.drop n
  fits := by
    have := q.fits
    rw [List.length_drop]
    omega

variable (q : Fifo α c) (xs : List α) (n : Nat)

@[simp] theorem empty_items : (empty α c).items = [] := rfl

@[simp] theorem accept_nil : q.accept [] = q := by simp [accept]

theorem accept_items_of_le {q : Fifo α c} {xs : List α} (h : xs.length ≤ q.free) :
    (q.accept xs).items = q.items ++ xs := by
  simp only [accept, List.take_of_length_le h]

theorem free_accept : (q.accept xs).free = q.free - xs.length := by
  simp only [free, accept, List.length_append, List.length_take]
  omega

@[simp] theorem drop_items : (q.drop n).items = q.items.drop n := rfl

@[simp] theorem drop_zero : q.drop 0 = q := rfl

end Fifo

/-- Positions that are less than a round apart have different slots. -/
theorem slot_inj {c p q : Nat} (near : p < q + c) (near' : q < p + c) (h : p % c = q % c) :
    p = q := by
  obtain le | le := le_total p q
  · have := Nat.eq_zero_of_dvd_of_lt ((Nat.modEq_iff_dvd' le).mp h) (by omega)
    omega
  · have := Nat.eq_zero_of_dvd_of_lt ((Nat.modEq_iff_dvd' le).mp h.symm) (by omega)
    omega

end Fuxi.Lib
