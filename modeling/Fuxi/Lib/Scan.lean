import Mathlib.Data.List.Range

/-!
# Scans of a table

A loop that looks for the first entry of a table that passes a test.
-/

namespace Fuxi.Lib

/-- The first index below `n` that passes the test. -/
def scan (p : Nat → Bool) (n : Nat) : Option Nat := (List.range n).find? p

variable {p : Nat → Bool} {n i : Nat}

theorem scan_some (h : scan p n = some i) : i < n ∧ p i = true :=
  ⟨List.mem_range.mp (List.mem_of_find?_eq_some h), List.find?_some h⟩

theorem scan_none : scan p n = none ↔ ∀ i < n, p i = false := by
  simp [scan, List.find?_eq_none]

end Fuxi.Lib
