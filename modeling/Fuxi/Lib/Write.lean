import Mathlib.Data.List.Nodup
import Mathlib.Logic.Function.Basic

/-!
# Writing consecutive values

Values are written to a list of cells, one after the other. Where no cell occurs twice, each of
them holds its value afterwards, and the other cells are as they were.
-/

namespace Fuxi.Lib

variable {κ α : Type*} [DecidableEq κ]

/-- Write the values, from the first one on, to the cells in order. -/
def write (values : Nat → α) : List κ → (κ → α) → κ → α
  | [], mem => mem
  | x :: xs, mem => write (fun i => values (i + 1)) xs (Function.update mem x (values 0))

theorem write_append (values : Nat → α) (xs ys : List κ) (mem : κ → α) :
    write values (xs ++ ys) mem =
      write (fun i => values (xs.length + i)) ys (write values xs mem) := by
  induction xs generalizing values mem with
  | nil =>
    simp only [List.nil_append, List.length_nil, Nat.zero_add]
    rfl
  | cons x xs ih =>
    simp only [List.cons_append, write, ih, List.length_cons, Nat.add_right_comm]

/-- The frame of a write. -/
theorem write_of_notMem {values : Nat → α} {xs : List κ} {mem : κ → α} {c : κ} (other : c ∉ xs) :
    write values xs mem c = mem c := by
  induction xs generalizing values mem with
  | nil => rfl
  | cons x xs ih =>
    rw [List.mem_cons, not_or] at other
    obtain ⟨ne, other⟩ := other
    rw [write, ih other, Function.update_of_ne ne]

theorem write_getElem {values : Nat → α} {xs : List κ} {mem : κ → α} (once : xs.Nodup) {i : Nat}
    (lt : i < xs.length) : write values xs mem xs[i] = values i := by
  induction xs generalizing values mem i with
  | nil => cases lt
  | cons x xs ih =>
    obtain ⟨fresh, once⟩ := List.nodup_cons.mp once
    cases i with
    | zero => exact (write_of_notMem fresh).trans (Function.update_self ..)
    | succ i => exact ih once (Nat.lt_of_succ_lt_succ lt)

end Fuxi.Lib
