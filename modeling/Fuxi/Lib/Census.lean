import Mathlib.Algebra.Order.BigOperators.Group.Finset
import Mathlib.Data.Fintype.Basic
import Fuxi.Lib.Holdings

/-!
# How many threads are at a place

A state gives every thread a place. The census counts the threads at the places that
pass a test; when one thread moves, its old place and its new place tell how the census
changes.
-/

namespace Fuxi.Lib

variable {T P : Type*} [Fintype T]

/-- The number of threads at places that pass the test. -/
def census (pc : T → P) (p : P → Bool) : Nat := ∑ t, (p (pc t)).toNat

variable {pc : T → P} {p : P → Bool}

/-- A thread that is counted. -/
theorem census_pos_iff : 0 < census pc p ↔ ∃ t, p (pc t) = true := by
  rw [census, Finset.sum_pos_iff]
  simp [Nat.pos_iff_ne_zero]

/-- No thread is counted. -/
theorem census_eq_zero_iff : census pc p = 0 ↔ ∀ t, p (pc t) = false := by
  rw [census, Finset.sum_eq_zero_iff]
  simp

/-- One thread moves. -/
theorem census_update [DecidableEq T] (pc : T → P) (t : T) (x : P) (p : P → Bool) :
    census (Function.update pc t x) p + (p (pc t)).toNat = census pc p + (p x).toNat := by
  have moved : total Finset.univ (fun y => (p y).toNat) (Function.update pc t x) +
      (p (pc t)).toNat = total Finset.univ (fun y => (p y).toNat) pc + (p x).toNat :=
    total_update (Finset.mem_univ t) x
  exact moved

/-- If only one thread is counted, all threads that are counted are the same. -/
theorem eq_of_census_le_one [DecidableEq T] (le : census pc p ≤ 1) {t u : T}
    (ht : p (pc t) = true) (hu : p (pc u) = true) : t = u := by
  by_contra ne
  have two : ∑ v ∈ {t, u}, (p (pc v)).toNat ≤ census pc p :=
    Finset.sum_le_sum_of_subset (Finset.subset_univ _)
  rw [Finset.sum_pair ne, ht, hu] at two
  exact absurd (two.trans le) (by decide)

end Fuxi.Lib
