import Mathlib.Data.List.Basic
import Fuxi.Lib.Region

/-!
# Chains of small arrays

A linked list of arrays with a fixed number of slots. Every array is filled from its back
to its front, and a full one is followed by a new array in front of it.
-/

namespace Fuxi.Lib

/-- An array at an address and the items in its used slots, the newest first. -/
structure Slots (α : Type*) where
  addr : Nat
  items : List α

/-- The newest array comes first. -/
abbrev Chain (α : Type*) := List (Slots α)

namespace Chain

variable {α : Type*}

/-- The newest array has a free slot. -/
def room (capacity : Nat) : Chain α → Bool
  | [] => false
  | array :: _ => array.items.length < capacity

/-- Fill the next slot of the newest array. -/
def put (x : α) : Chain α → Chain α
  | [] => []
  | array :: rest => { array with items := x :: array.items } :: rest

/-- All items, the newest first. -/
def items (c : Chain α) : List α := c.flatMap Slots.items

/-- The memory of the arrays. -/
def records (size : Nat) (c : Chain α) : List Region := c.map fun array => ⟨array.addr, size⟩

@[simp] theorem items_nil : items ([] : Chain α) = [] := rfl

@[simp] theorem items_cons (array : Slots α) (c : Chain α) :
    items (array :: c) = array.items ++ items c := rfl

@[simp] theorem records_nil (size : Nat) : records size ([] : Chain α) = [] := rfl

@[simp] theorem records_cons (size : Nat) (array : Slots α) (c : Chain α) :
    records size (array :: c) = ⟨array.addr, size⟩ :: records size c := rfl

theorem items_put {capacity : Nat} {c : Chain α} (h : room capacity c = true) (x : α) :
    items (put x c) = x :: items c := by
  cases c with
  | nil => simp [room] at h
  | cons array rest => rfl

@[simp] theorem records_put (size : Nat) (c : Chain α) (x : α) :
    records size (put x c) = records size c := by
  cases c <;> rfl

/-- Only the newest array may have free slots. -/
def Full (capacity : Nat) : Chain α → Prop
  | [] => True
  | array :: older =>
    array.items.length ≤ capacity ∧ ∀ a ∈ older, a.items.length = capacity

theorem full_put {capacity : Nat} {c : Chain α} (h : Full capacity c)
    (free : room capacity c = true) (x : α) : Full capacity (put x c) := by
  cases c with
  | nil => trivial
  | cons array older => exact ⟨of_decide_eq_true free, h.2⟩

theorem full_cons {capacity : Nat} {c : Chain α} (h : Full capacity c)
    (used : room capacity c = false) {array : Slots α} (le : array.items.length ≤ capacity) :
    Full capacity (array :: c) := by
  refine ⟨le, ?_⟩
  cases c with
  | nil => exact fun _ => nofun
  | cons newest older =>
    have most : capacity ≤ newest.items.length := not_lt.mp (of_decide_eq_false used)
    exact List.forall_mem_cons.mpr ⟨Nat.le_antisymm h.1 most, h.2⟩

end Chain

end Fuxi.Lib
