import Mathlib.Data.List.Nodup
import Mathlib.Order.Interval.Set.LinearOrder

/-!
# Lists of intervals

A set is enumerated by half-open intervals that are not empty, ascend and do not touch. Such a
list is built from the left: its last interval is made longer, or a new one begins behind a gap.
-/

namespace Fuxi.Lib

variable {α : Type*} [LinearOrder α]

/-- The intervals of the list are not empty, each of them ends before the next one begins, and
together they are the set. -/
structure Enumerates (l : List (α × α)) (S : Set α) : Prop where
  nonempty : ∀ r ∈ l, r.1 < r.2
  apart : l.Pairwise fun a b => a.2 < b.1
  mem_iff : ∀ x, x ∈ S ↔ ∃ r ∈ l, x ∈ Set.Ico r.1 r.2

namespace Enumerates

variable {l : List (α × α)} {S S' : Set α} {a b c : α}

theorem nil (empty : ∀ x, x ∉ S) : Enumerates [] S where
  nonempty := by simp
  apart := .nil
  mem_iff x := by simp [empty x]

theorem congr (h : Enumerates l S) (same : ∀ x, x ∈ S' ↔ x ∈ S) : Enumerates l S' :=
  ⟨h.nonempty, h.apart, fun x => (same x).trans (h.mem_iff x)⟩

/-- The interval at the end begins behind all the others. -/
theorem before (h : Enumerates (l ++ [(a, b)]) S) {r : α × α} (mem : r ∈ l) : r.2 < a :=
  (List.pairwise_append.mp h.apart).2.2 r mem (a, b) (List.mem_singleton_self _)

theorem last_lt (h : Enumerates (l ++ [(a, b)]) S) : a < b :=
  h.nonempty (a, b) (List.mem_append_right l (List.mem_singleton_self _))

/-- A new interval begins behind a gap. -/
theorem snoc (h : Enumerates l S) (gap : ∀ r ∈ l, r.2 < a) (lt : a < b)
    (mem : ∀ x, x ∈ S' ↔ x ∈ S ∨ x ∈ Set.Ico a b) : Enumerates (l ++ [(a, b)]) S' where
  nonempty r hr := by
    obtain old | new := List.mem_append.mp hr
    · exact h.nonempty r old
    · rw [List.mem_singleton.mp new]
      exact lt
  apart := by
    refine List.pairwise_append.mpr ⟨h.apart, List.pairwise_singleton _ _, fun r hr q hq => ?_⟩
    rw [List.mem_singleton.mp hq]
    exact gap r hr
  mem_iff x := by
    rw [mem, h.mem_iff]
    simp only [List.mem_append, List.mem_singleton, or_and_right, exists_or, exists_eq_left]

/-- The interval at the end is made longer. -/
theorem extend (h : Enumerates (l ++ [(a, b)]) S) (le : b ≤ c)
    (mem : ∀ x, x ∈ S' ↔ x ∈ S ∨ x ∈ Set.Ico b c) : Enumerates (l ++ [(a, c)]) S' where
  nonempty r hr := by
    obtain old | new := List.mem_append.mp hr
    · exact h.nonempty r (List.mem_append_left _ old)
    · rw [List.mem_singleton.mp new]
      exact h.last_lt.trans_le le
  apart := by
    refine List.pairwise_append.mpr ⟨(List.pairwise_append.mp h.apart).1,
      List.pairwise_singleton _ _, fun r hr q hq => ?_⟩
    rw [List.mem_singleton.mp hq]
    exact h.before hr
  mem_iff x := by
    have split : x ∈ Set.Ico a c ↔ x ∈ Set.Ico a b ∨ x ∈ Set.Ico b c := by
      rw [← Set.mem_union, Set.Ico_union_Ico_eq_Ico h.last_lt.le le]
    rw [mem, h.mem_iff]
    simp only [List.mem_append, List.mem_singleton, or_and_right, exists_or, exists_eq_left, split,
      or_assoc]

end Enumerates

/-! ## Intervals of numbers -/

/-- The numbers below `n` that lie in one of the intervals, in order. -/
def numbersBelow (n : Nat) (l : List (Nat × Nat)) : List Nat :=
  l.flatMap fun r => List.range' (min r.1 n) (min r.2 n - min r.1 n)

namespace Enumerates

variable {l : List (Nat × Nat)} {S : Set Nat}

/-- The set has these elements below `n`. -/
theorem mem_numbersBelow (h : Enumerates l S) (n x : Nat) :
    x ∈ numbersBelow n l ↔ x ∈ S ∧ x < n := by
  rw [numbersBelow, List.mem_flatMap, h.mem_iff, ← exists_and_right]
  refine exists_congr fun r => ?_
  rw [and_assoc, List.mem_range'_1]
  refine and_congr_right fun mem => ?_
  have := h.nonempty r mem
  show _ ↔ (r.1 ≤ x ∧ x < r.2) ∧ x < n
  omega

theorem nodup_numbersBelow (h : Enumerates l S) (n : Nat) : (numbersBelow n l).Nodup := by
  rw [numbersBelow, List.nodup_flatMap]
  refine ⟨fun r _ => List.nodup_range', h.apart.imp fun {r q} lt x hr hq => ?_⟩
  have := List.mem_range'_1.mp hr
  have := List.mem_range'_1.mp hq
  omega

end Enumerates

end Fuxi.Lib
