import Mathlib.Data.List.Basic

/-!
# Lists that are linked through a table

A list of different numbers is stored in a table that gives the successor of each of them;
the last one is followed by an end mark.
-/

namespace Fuxi.Lib

/-- From `head`, the table `next` leads through the list `xs` to the mark `tail`. -/
def Links (next : Nat → Nat) (tail : Nat) : Nat → List Nat → Prop
  | head, [] => head = tail
  | head, x :: xs => head = x ∧ x ≠ tail ∧ Links next tail (next x) xs

namespace Links

variable {next : Nat → Nat} {tail head x : Nat} {xs ys : List Nat}

/-- A list whose head is not the end mark has a first element. -/
theorem exists_cons (h : Links next tail head xs) (ne : head ≠ tail) :
    ∃ ys, xs = head :: ys ∧ Links next tail (next head) ys := by
  cases xs with
  | nil => exact (ne h).elim
  | cons x xs =>
    obtain ⟨rfl, -, rest⟩ := h
    exact ⟨xs, rfl, rest⟩

/-- Only the entries of the listed numbers matter. -/
theorem congr {next' : Nat → Nat} (h : Links next tail head xs)
    (same : ∀ x ∈ xs, next' x = next x) : Links next' tail head xs := by
  induction xs generalizing head with
  | nil => exact h
  | cons x xs ih =>
    obtain ⟨rfl, ne, rest⟩ := h
    refine ⟨rfl, ne, ?_⟩
    rw [same head List.mem_cons_self]
    exact ih rest fun x hx => same x (List.mem_cons_of_mem head hx)

/-- A number that points to the head goes in front. -/
theorem cons (h : Links next tail head xs) (ne : x ≠ tail) (points : next x = head) :
    Links next tail x (x :: xs) :=
  ⟨rfl, ne, by rw [points]; exact h⟩

/-- The entry of a listed number is listed, or it is the end mark. -/
theorem next_mem (h : Links next tail head xs) (mem : x ∈ xs) : next x ∈ xs ∨ next x = tail := by
  induction xs generalizing head with
  | nil => cases mem
  | cons y ys ih =>
    obtain ⟨rfl, -, rest⟩ := h
    obtain rfl | mem := List.mem_cons.mp mem
    · cases ys with
      | nil => exact Or.inr rest
      | cons z zs => exact Or.inl (by rw [rest.1]; simp)
    · obtain next | last := ih rest mem
      · exact Or.inl (List.mem_cons_of_mem _ next)
      · exact Or.inr last

/-- The table stores one list only. -/
theorem unique (h : Links next tail head xs) (h' : Links next tail head ys) : xs = ys := by
  induction xs generalizing head ys with
  | nil =>
    cases ys with
    | nil => rfl
    | cons y ys => exact (h'.2.1 (h'.1 ▸ h)).elim
  | cons x xs ih =>
    obtain ⟨rfl, ne, rest⟩ := h
    obtain ⟨zs, rfl, rest'⟩ := h'.exists_cons ne
    rw [ih rest rest']

end Links

end Fuxi.Lib
