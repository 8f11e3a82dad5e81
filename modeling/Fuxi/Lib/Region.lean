import Mathlib.Algebra.GroupWithZero.Nat
import Mathlib.Order.CompletePartialOrder
import Mathlib.Order.Interval.Set.Disjoint

/-!
# Regions of memory

A region is a start address and a number of bytes. An empty region has no address in
common with any other.
-/

namespace Fuxi.Lib

/-- The `size` bytes from address `start` on. -/
structure Region where
  start : Nat
  size : Nat
  deriving DecidableEq

namespace Region

/-- The first address behind the region. -/
def stop (r : Region) : Nat := r.start + r.size

/-- The addresses of the region. -/
def bytes (r : Region) : Set Nat := Set.Ico r.start r.stop

/-- Two regions have no address in common. -/
def Apart (r s : Region) : Prop := Disjoint r.bytes s.bytes

instance (r s : Region) : Decidable (r.Apart s) :=
  decidable_of_iff (min r.stop s.stop ≤ max r.start s.start) Set.Ico_disjoint_Ico.symm

/-- The region `r` is a part of the region `s`. -/
def Inside (r s : Region) : Prop := s.start ≤ r.start ∧ r.stop ≤ s.stop

variable {r s t : Region}

theorem Inside.refl (r : Region) : r.Inside r := ⟨le_rfl, le_rfl⟩

theorem Inside.trans (h : r.Inside s) (h' : s.Inside t) : r.Inside t :=
  ⟨h'.1.trans h.1, h.2.trans h'.2⟩

theorem Inside.bytes_subset (h : r.Inside s) : r.bytes ⊆ s.bytes := Set.Ico_subset_Ico h.1 h.2

theorem Apart.symm (h : r.Apart s) : s.Apart r := Disjoint.symm h

/-- Regions that come one after the other. -/
theorem apart_of_le (h : r.stop ≤ s.start) : r.Apart s := by
  rw [Apart, bytes, bytes, Set.Ico_disjoint_Ico]
  exact (min_le_left _ _).trans (h.trans (le_max_right _ _))

/-- Regions that are not empty are apart only if one of them comes after the other. -/
theorem apart_iff (hr : 0 < r.size) (hs : 0 < s.size) :
    r.Apart s ↔ r.stop ≤ s.start ∨ s.stop ≤ r.start := by
  rw [Apart, bytes, bytes, Set.Ico_disjoint_Ico]
  unfold stop
  omega

/-- Parts of disjoint regions are disjoint. -/
theorem Apart.mono (h : s.Apart t) {r u : Region} (hr : r.Inside s) (hu : u.Inside t) :
    r.Apart u :=
  Disjoint.mono hr.bytes_subset hu.bytes_subset h

/-! ## What regions cover -/

/-- The addresses of the regions of a list. -/
def area (l : List Region) : Set Nat := {x | ∃ r ∈ l, x ∈ r.bytes}

theorem area_mono {l l' : List Region} (h : l ⊆ l') : area l ⊆ area l' :=
  fun _ ⟨r, mem, hx⟩ => ⟨r, h mem, hx⟩

theorem area_cons (r : Region) (l : List Region) : area (r :: l) = r.bytes ∪ area l := by
  ext x
  simp [area]

theorem bytes_subset_area {l : List Region} (mem : s ∈ l) (inside : r.Inside s) :
    r.bytes ⊆ area l := fun _ hx => ⟨s, mem, inside.bytes_subset hx⟩

/-! ## Rows -/

/-- Regions of these sizes, each behind the one before. -/
def row : Nat → List Nat → List Region
  | _, [] => []
  | start, size :: sizes => ⟨start, size⟩ :: row (start + size) sizes

@[simp] theorem map_size_row (start : Nat) (sizes : List Nat) :
    (row start sizes).map Region.size = sizes := by
  induction sizes generalizing start with
  | nil => rfl
  | cons size sizes ih => simp [row, ih]

theorem inside_of_mem_row {start : Nat} {sizes : List Nat} (h : r ∈ row start sizes) :
    r.Inside ⟨start, sizes.sum⟩ := by
  induction sizes generalizing start with
  | nil => cases h
  | cons size sizes ih =>
    unfold Inside stop
    rw [List.sum_cons]
    obtain rfl | h := List.mem_cons.mp h
    · simp
    · obtain ⟨lo, hi⟩ := ih h
      simp only [stop] at lo hi ⊢
      omega

theorem row_apart (start : Nat) (sizes : List Nat) : (row start sizes).Pairwise Apart := by
  induction sizes generalizing start with
  | nil => exact .nil
  | cons size sizes ih =>
    refine List.pairwise_cons.mpr ⟨fun r hr => ?_, ih _⟩
    exact apart_of_le (inside_of_mem_row hr).1

end Region

end Fuxi.Lib
