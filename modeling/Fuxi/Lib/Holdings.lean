import Mathlib.Algebra.BigOperators.Group.Finset.Piecewise

/-!
# What holders have together

Finitely many holders have something each, and what it is worth can be added up. When one
holder gets something else, or two exchange what they have, the old and the new worth tell how
the total changes.
-/

namespace Fuxi.Lib

variable {ι α M : Type*} [AddCancelCommMonoid M]

/-- The worth of what the holders of a set have. -/
def total (S : Finset ι) (worth : α → M) (has : ι → α) : M := ∑ i ∈ S, worth (has i)

variable {S : Finset ι} {worth : α → M} {has : ι → α} {i j : ι}

@[simp] theorem total_empty : total ∅ worth has = 0 := Finset.sum_empty

theorem total_congr {has' : ι → α} (same : ∀ i ∈ S, worth (has' i) = worth (has i)) :
    total S worth has' = total S worth has := Finset.sum_congr rfl same

variable [DecidableEq ι]

/-- A holder leaves. -/
theorem total_erase (mem : i ∈ S) :
    worth (has i) + total (S.erase i) worth has = total S worth has :=
  Finset.add_sum_erase S (fun i => worth (has i)) mem

/-- Holders outside of the set do not count. -/
theorem total_update_of_notMem (new : i ∉ S) (x : α) :
    total S worth (Function.update has i x) = total S worth has :=
  total_congr fun j hj => by rw [Function.update_of_ne (ne_of_mem_of_not_mem hj new)]

/-- One holder gets something else. -/
theorem total_update (mem : i ∈ S) (x : α) :
    total S worth (Function.update has i x) + worth (has i) = total S worth has + worth x := by
  rw [← total_erase mem, ← total_erase mem, total_update_of_notMem (Finset.notMem_erase i S),
    Function.update_self, add_right_comm, add_comm (worth x), add_right_comm]

/-- One holder gets something else that is worth more by `v`. -/
theorem total_update_add (mem : i ∈ S) {x : α} {v : M} (more : worth x = worth (has i) + v) :
    total S worth (Function.update has i x) = total S worth has + v := by
  have moved : total S worth (Function.update has i x) + worth (has i) = _ := total_update mem x
  rw [more, add_comm (worth (has i)), ← add_assoc] at moved
  exact add_right_cancel moved

/-- One holder gets something else that is worth as much. -/
theorem total_update_same {x : α} (same : worth x = worth (has i)) :
    total S worth (Function.update has i x) = total S worth has := by
  refine total_congr fun j _ => ?_
  by_cases h : j = i
  · rw [h, Function.update_self, same]
  · rw [Function.update_of_ne h]

/-- A holder arrives. -/
theorem total_insert (new : i ∉ S) (x : α) :
    total (insert i S) worth (Function.update has i x) = worth x + total S worth has := by
  rw [total, Finset.sum_insert new, Function.update_self]
  exact congrArg _ (total_update_of_notMem new x)

/-- Two holders get something else that is worth the same together. -/
theorem total_exchange (memi : i ∈ S) (memj : j ∈ S) (ne : i ≠ j) {x y : α}
    (same : worth x + worth y = worth (has i) + worth (has j)) :
    total S worth (Function.update (Function.update has i x) j y) = total S worth has := by
  have first : total S worth (Function.update has i x) + worth (has i) = _ := total_update memi x
  have second : total S worth (Function.update (Function.update has i x) j y) + worth (has j) =
      total S worth (Function.update has i x) + worth y := by
    rw [← total_update memj y, Function.update_of_ne ne.symm]
  refine add_right_cancel (b := worth (has i) + worth (has j)) ?_
  rw [add_comm (worth (has i)), ← add_assoc, second, add_right_comm, first, add_assoc, same,
    add_comm (worth (has i))]

end Fuxi.Lib
