import Mathlib.Algebra.BigOperators.Intervals
import Mathlib.Algebra.BigOperators.Group.Finset.Piecewise

/-!
# Sums that are collected while they grow

A sum is kept in cells, and a log lists what was added through which cell, in order. Who collects
the sum reads one cell after the other, while others go on adding. What it gets counts a prefix of
the additions through each cell: at least those that were made before it began, and at most those
that were made before it ended.
-/

namespace Fuxi.Lib

variable {V : Type*}

/-- What was added through one cell. -/
def through (log : List (ℕ × V)) (i : ℕ) : List V := (log.filter fun e => e.1 = i).map Prod.snd

theorem through_append (log log' : List (ℕ × V)) (i : ℕ) :
    through (log ++ log') i = through log i ++ through log' i := by
  simp [through]

theorem through_mono {old log : List (ℕ × V)} (le : old <+: log) (i : ℕ) :
    through old i <+: through log i := by
  obtain ⟨rest, rfl⟩ := le
  exact ⟨through rest i, (through_append old rest i).symm⟩

theorem through_eq_nil {log : List (ℕ × V)} {i : ℕ} (none : ∀ e ∈ log, e.1 ≠ i) :
    through log i = [] := by
  rw [through, List.filter_eq_nil_iff.mpr fun e he => by simpa using none e he]
  rfl

variable [AddCommMonoid V]

/-- The sum over the first `n` cells counts of each cell the additions of `old` and possibly more
of those of `log`, in order. -/
def Collected (n : ℕ) (old log : List (ℕ × V)) (sum : V) : Prop :=
  ∃ counted : ℕ → ℕ,
    (∀ i < n, (through old i).length ≤ counted i ∧ counted i ≤ (through log i).length) ∧
      sum = ∑ i ∈ Finset.range n, ((through log i).take (counted i)).sum

namespace Collected

variable {n : ℕ} {old log : List (ℕ × V)} {sum : V}

theorem zero : Collected 0 old log 0 := ⟨fun _ => 0, nofun, rfl⟩

/-- Others go on adding. -/
theorem grow (h : Collected n old log sum) (more : List (ℕ × V)) :
    Collected n old (log ++ more) sum := by
  obtain ⟨counted, between, rfl⟩ := h
  refine ⟨counted, fun i hi => ?_, Finset.sum_congr rfl fun i hi => ?_⟩
  · obtain ⟨lo, hi⟩ := between i hi
    rw [through_append, List.length_append]
    exact ⟨lo, hi.trans (Nat.le_add_right _ _)⟩
  · have hi := (between i (Finset.mem_range.mp hi)).2
    rw [through_append, List.take_append_of_le_length hi]

/-- One cell more is counted, up to some addition. -/
theorem count (h : Collected n old log sum) {k : ℕ} (lo : (through old n).length ≤ k)
    (hi : k ≤ (through log n).length) :
    Collected (n + 1) old log (sum + ((through log n).take k).sum) := by
  obtain ⟨counted, between, rfl⟩ := h
  refine ⟨Function.update counted n k, fun i le => ?_, ?_⟩
  · by_cases e : i = n
    · subst e
      rw [Function.update_self]
      exact ⟨lo, hi⟩
    · rw [Function.update_of_ne e]
      exact between i (by omega)
  · rw [Finset.sum_range_succ, Function.update_self]
    congr 1
    refine Finset.sum_congr rfl fun i mem => ?_
    rw [Function.update_of_ne (Finset.mem_range.mp mem).ne]

/-- One cell more is read. -/
theorem next (h : Collected n old log sum) (le : old <+: log) :
    Collected (n + 1) old log (sum + (through log n).sum) := by
  have all := h.count (through_mono le n).length_le le_rfl
  rwa [List.take_length] at all

/-- Cells without earlier additions need not be read. -/
theorem extend (h : Collected n old log sum) {m : ℕ} (le : n ≤ m) (few : ∀ e ∈ old, e.1 < n) :
    Collected m old log sum := by
  induction m, le using Nat.le_induction with
  | base => exact h
  | succ m le ih =>
    have none : through old m = [] := through_eq_nil fun e he => by have := few e he; omega
    have same := ih.count (k := 0) (by rw [none]; exact le_rfl) (Nat.zero_le _)
    rwa [List.take_zero, List.sum_nil, add_zero] at same

/-- If nothing was added meanwhile, the sum is that of all additions. -/
theorem sum_eq (h : Collected n log log sum) (few : ∀ e ∈ log, e.1 < n) :
    sum = (log.map Prod.snd).sum := by
  obtain ⟨counted, between, rfl⟩ := h
  have all : ∀ i ∈ Finset.range n, ((through log i).take (counted i)).sum =
      (through log i).sum := by
    intro i mem
    rw [List.take_of_length_le (between i (Finset.mem_range.mp mem)).1]
  rw [Finset.sum_congr rfl all]
  clear between all
  induction log with
  | nil => simp [through]
  | cons e log ih =>
    obtain ⟨small, few⟩ := List.forall_mem_cons.mp few
    have split : ∀ i, (through (e :: log) i).sum =
        (if e.1 = i then e.2 else 0) + (through log i).sum := by
      intro i
      by_cases own : e.1 = i <;> simp [through, own]
    simp only [split, Finset.sum_add_distrib, ih few, List.map_cons, List.sum_cons]
    rw [Finset.sum_ite_eq, if_pos (Finset.mem_range.mpr small)]

end Collected

end Fuxi.Lib
