import Fuxi.Lib.Region
import Fuxi.Lib.Word

/-!
# Placement in the free space of a domain

`Allocate` carves the fields of a schema from the free space one after the other. The counter of
the space in use is a `uint32_t`, the bound is tested on a `size_t` sum that may wrap around, and
a field that does not fit leaves the fields before it allocated.
-/

namespace Fuxi.Shm.Topo

open Lib

/-- The free space in `ShmProtoHeader`, two `uint32_t`. -/
structure ShmProtoHeader where
  freeSpaceSize : Nat
  freeSpaceUsed : Nat

/-- `FieldBuffer`, with a null pointer at first. -/
structure FieldBuffer where
  ptr : Nat := 0
  spaceSize : Nat := 0

namespace ShmProtoHeader

/-- `Allocate(size)`, or `none` for a null pointer; `data` is the address `&data[0]`. -/
def allocate (h : ShmProtoHeader) (data size : Nat) : ShmProtoHeader × Option Nat :=
  if h.freeSpaceSize < u64 (size + h.freeSpaceUsed) then (h, none)
  else ({ h with freeSpaceUsed := u32 (h.freeSpaceUsed + size) }, some (data + h.freeSpaceUsed))

/-- `Allocate(schema, storage)` for fields with these `request_space_size`s: the header, the
buffers in `storage`, and the result. -/
def allocateFields (data : Nat) (h : ShmProtoHeader) :
    List Nat → ShmProtoHeader × List FieldBuffer × Bool
  | [] => (h, [], true)
  | size :: sizes =>
    match h.allocate data size with
    | (h', none) => (h', List.replicate (sizes.length + 1) {}, false)
    | (h', some ptr) =>
      let rest := allocateFields data h' sizes
      (rest.1, ⟨ptr, size⟩ :: rest.2.1, rest.2.2)

/-- The regions of the buffers. -/
def regions (storage : List FieldBuffer) : List Region := storage.map fun b => ⟨b.ptr, b.spaceSize⟩

/-- The part of the space that is in use, and all of it. -/
def usedSpace (h : ShmProtoHeader) (data : Nat) : Region := ⟨data, h.freeSpaceUsed⟩

def space (h : ShmProtoHeader) (data : Nat) : Region := ⟨data, h.freeSpaceSize⟩

/-- Both counters are 32-bit numbers, and no more is in use than there is. -/
structure Valid (h : ShmProtoHeader) : Prop where
  le : h.freeSpaceUsed ≤ h.freeSpaceSize
  small : h.freeSpaceSize < 4294967296

/-- Every field has got a region of its size, apart from the others and from the space in use
before, and inside of the space. -/
structure Placed (h : ShmProtoHeader) (data : Nat) (sizes : List Nat) (storage : List FieldBuffer) :
    Prop where
  sizes : (regions storage).map Region.size = sizes
  apart : (regions storage).Pairwise Region.Apart
  fresh : ∀ r ∈ regions storage, r.Apart (h.usedSpace data)
  inside : ∀ r ∈ regions storage, r.Inside (h.space data)

/-- All fields are placed, or the space in use is what it was. -/
def AllOrNothing (h : ShmProtoHeader) (data : Nat) (sizes : List Nat) : Prop :=
  let r := h.allocateFields data sizes
  r.2.2 = true ∧ h.Placed data sizes r.2.1 ∨
    r.2.2 = false ∧ r.1.freeSpaceUsed = h.freeSpaceUsed

/-- The sum that the code compares after `k` fields. -/
def sumAfter (used : Nat) (sizes : List Nat) (k : Nat) : Nat := u64 (used + (sizes.take k).sum)

/-- The field `k` is the first one that the test refuses. -/
structure Refuses (h : ShmProtoHeader) (sizes : List Nat) (k : Nat) : Prop where
  lt : k < sizes.length
  before : ∀ j ≤ k, sumAfter h.freeSpaceUsed sizes j ≤ h.freeSpaceSize
  here : h.freeSpaceSize < sumAfter h.freeSpaceUsed sizes (k + 1)

/-- All fields fit, or those before the first one that is refused take no space. -/
def PlacesOrKeeps (h : ShmProtoHeader) (sizes : List Nat) : Prop :=
  h.freeSpaceUsed + sizes.sum ≤ h.freeSpaceSize ∨
    ∃ k, h.Refuses sizes k ∧ u64 (sizes.take k).sum = 0

/-! ## One field -/

variable {h : ShmProtoHeader} {data size : Nat} {sizes : List Nat}

theorem allocate_refused (full : h.freeSpaceSize < u64 (h.freeSpaceUsed + size)) :
    h.allocate data size = (h, none) := by
  rw [allocate, Nat.add_comm size, if_pos full]

/-- What is in use after a field that is accepted, also if the sum has wrapped around. -/
theorem Valid.allocate_accepted (valid : h.Valid)
    (room : u64 (h.freeSpaceUsed + size) ≤ h.freeSpaceSize) :
    h.allocate data size =
      ({ h with freeSpaceUsed := u64 (h.freeSpaceUsed + size) }, some (data + h.freeSpaceUsed)) := by
  have small := valid.small
  have same : u32 (h.freeSpaceUsed + size) = u64 (h.freeSpaceUsed + size) := by
    unfold u64 at room
    unfold u32 u64
    omega
  rw [allocate, Nat.add_comm size, if_neg (not_lt.mpr room), same]

theorem Valid.accepted (valid : h.Valid) (room : u64 (h.freeSpaceUsed + size) ≤ h.freeSpaceSize) :
    ({ h with freeSpaceUsed := u64 (h.freeSpaceUsed + size) } : ShmProtoHeader).Valid :=
  ⟨room, valid.small⟩

theorem Valid.sumAfter_zero (valid : h.Valid) : sumAfter h.freeSpaceUsed sizes 0 = h.freeSpaceUsed := by
  have := valid.le
  have := valid.small
  simp only [sumAfter, List.take_zero, List.sum_nil, Nat.add_zero]
  exact u64_of_lt (by omega)

theorem sumAfter_cons (used size : Nat) (sizes : List Nat) (k : Nat) :
    sumAfter used (size :: sizes) (k + 1) = sumAfter (u64 (used + size)) sizes k := by
  simp only [sumAfter, List.take_succ_cons, List.sum_cons, u64]
  omega

theorem Valid.refuses_cons (valid : h.Valid) {k : Nat} : h.Refuses (size :: sizes) (k + 1) ↔
    u64 (h.freeSpaceUsed + size) ≤ h.freeSpaceSize ∧
      ({ h with freeSpaceUsed := u64 (h.freeSpaceUsed + size) } : ShmProtoHeader).Refuses sizes k := by
  constructor
  · intro refuses
    have first := refuses.before 1 (by omega)
    rw [sumAfter_cons, sumAfter, List.take_zero, List.sum_nil, Nat.add_zero] at first
    have room : u64 (h.freeSpaceUsed + size) ≤ h.freeSpaceSize := by
      unfold u64 at first ⊢
      omega
    refine ⟨room, Nat.lt_of_succ_lt_succ refuses.lt, fun j hj => ?_, ?_⟩
    · rw [← sumAfter_cons]
      exact refuses.before (j + 1) (by omega)
    · rw [← sumAfter_cons]
      exact refuses.here
  · rintro ⟨room, refuses⟩
    refine ⟨Nat.succ_lt_succ refuses.lt, fun j hj => ?_, ?_⟩
    · cases j with
      | zero =>
        rw [valid.sumAfter_zero]
        exact valid.le
      | succ j =>
        rw [sumAfter_cons]
        exact refuses.before j (by omega)
    · rw [sumAfter_cons]
      exact refuses.here

/-! ## All fields -/

/-- Fields that fit are placed one behind the other. -/
theorem Valid.allocateFields_fits (valid : h.Valid) (data : Nat)
    (fits : h.freeSpaceUsed + sizes.sum ≤ h.freeSpaceSize) :
    (h.allocateFields data sizes).2.2 = true ∧
      regions (h.allocateFields data sizes).2.1 = Region.row (data + h.freeSpaceUsed) sizes := by
  induction sizes generalizing h with
  | nil => exact ⟨rfl, rfl⟩
  | cons size sizes ih =>
    rw [List.sum_cons] at fits
    have small := valid.small
    have sum : u64 (h.freeSpaceUsed + size) = h.freeSpaceUsed + size := u64_of_lt (by omega)
    have room : u64 (h.freeSpaceUsed + size) ≤ h.freeSpaceSize := by omega
    obtain ⟨done, placed⟩ := ih (valid.accepted room) (by simp only [sum]; omega)
    simp only [allocateFields, valid.allocate_accepted room]
    have next : data + h.freeSpaceUsed + size = data + u64 (h.freeSpaceUsed + size) := by omega
    refine ⟨done, ?_⟩
    rw [Region.row, next]
    exact congrArg (_ :: ·) placed

/-- The first field that is refused ends the placement, and what the fields before it have taken
stays in use. -/
theorem Valid.allocateFields_refused (valid : h.Valid) (data : Nat) {k : Nat}
    (refuses : h.Refuses sizes k) :
    (h.allocateFields data sizes).2.2 = false ∧
      (h.allocateFields data sizes).1.freeSpaceUsed = sumAfter h.freeSpaceUsed sizes k := by
  induction sizes generalizing h k with
  | nil => exact absurd refuses.lt (Nat.not_lt_zero k)
  | cons size sizes ih =>
    cases k with
    | zero =>
      have full : h.freeSpaceSize < u64 (h.freeSpaceUsed + size) := by
        simpa [sumAfter] using refuses.here
      simp only [allocateFields, allocate_refused full]
      exact ⟨trivial, valid.sumAfter_zero.symm⟩
    | succ k =>
      obtain ⟨room, refuses⟩ := valid.refuses_cons.mp refuses
      obtain ⟨failed, used⟩ := ih (valid.accepted room) refuses
      simp only [allocateFields, valid.allocate_accepted room, sumAfter_cons]
      exact ⟨failed, used⟩

/-- A placement fails at some field. -/
theorem Valid.exists_refuses (valid : h.Valid)
    (failed : (h.allocateFields data sizes).2.2 = false) : ∃ k, h.Refuses sizes k := by
  induction sizes generalizing h with
  | nil => cases failed
  | cons size sizes ih =>
    obtain full | room := lt_or_ge h.freeSpaceSize (u64 (h.freeSpaceUsed + size))
    · refine ⟨0, Nat.zero_lt_succ _, fun j hj => ?_, by simpa [sumAfter] using full⟩
      obtain rfl := Nat.le_zero.mp hj
      rw [valid.sumAfter_zero]
      exact valid.le
    · simp only [allocateFields, valid.allocate_accepted room] at failed
      obtain ⟨k, refuses⟩ := ih (valid.accepted room) failed
      exact ⟨k + 1, valid.refuses_cons.mpr ⟨room, refuses⟩⟩

/-- If none of the fields is larger than the space, a placement that succeeds has had room. -/
theorem Valid.fits_of_done (valid : h.Valid) (done : (h.allocateFields data sizes).2.2 = true)
    (moderate : ∀ size ∈ sizes, size ≤ h.freeSpaceSize) :
    h.freeSpaceUsed + sizes.sum ≤ h.freeSpaceSize := by
  induction sizes generalizing h with
  | nil => exact valid.le
  | cons size sizes ih =>
    have small := valid.small
    have le := valid.le
    have first := moderate size List.mem_cons_self
    have sum : u64 (h.freeSpaceUsed + size) = h.freeSpaceUsed + size := u64_of_lt (by omega)
    obtain full | room := lt_or_ge h.freeSpaceSize (u64 (h.freeSpaceUsed + size))
    · simp only [allocateFields, allocate_refused full] at done
      cases done
    · simp only [allocateFields, valid.allocate_accepted room] at done
      have rest := ih (valid.accepted room) done fun size mem =>
        moderate size (List.mem_cons_of_mem _ mem)
      simp only [sum] at rest
      rw [List.sum_cons]
      omega

/-- A row of regions behind the space in use. -/
theorem Valid.placed (valid : h.Valid) (fits : h.freeSpaceUsed + sizes.sum ≤ h.freeSpaceSize) :
    h.Placed data sizes (h.allocateFields data sizes).2.1 := by
  obtain ⟨-, row⟩ := valid.allocateFields_fits data fits
  refine ⟨?_, ?_, fun r hr => ?_, fun r hr => ?_⟩
  · rw [row, Region.map_size_row]
  · rw [row]
    exact Region.row_apart _ _
  · rw [row] at hr
    exact (Region.apart_of_le (r := h.usedSpace data) (Region.inside_of_mem_row hr).1).symm
  · rw [row] at hr
    refine (Region.inside_of_mem_row hr).trans ⟨Nat.le_add_right _ _, ?_⟩
    simp only [Region.stop, space]
    omega

/-- A schema is placed as a whole or not at all exactly if all of it fits, or nothing of it has
been placed before the first field that is refused. -/
theorem allOrNothing_iff (valid : h.Valid) (data : Nat) (sizes : List Nat) :
    h.AllOrNothing data sizes ↔ h.PlacesOrKeeps sizes := by
  have le := valid.le
  have small := valid.small
  constructor
  · rintro (⟨done, placed⟩ | ⟨failed, kept⟩)
    · refine Or.inl (valid.fits_of_done done fun size mem => ?_)
      rw [← placed.sizes] at mem
      obtain ⟨r, hr, rfl⟩ := List.mem_map.mp mem
      obtain ⟨lo, hi⟩ := placed.inside r hr
      simp only [Region.stop, space] at lo hi
      omega
    · obtain ⟨k, refuses⟩ := valid.exists_refuses failed
      have used := (valid.allocateFields_refused data refuses).2
      rw [kept, sumAfter] at used
      refine Or.inr ⟨k, refuses, ?_⟩
      unfold u64 at used ⊢
      omega
  · rintro (fits | ⟨k, refuses, none⟩)
    · exact Or.inl ⟨(valid.allocateFields_fits data fits).1, valid.placed fits⟩
    · obtain ⟨failed, used⟩ := valid.allocateFields_refused data refuses
      refine Or.inr ⟨failed, ?_⟩
      rw [used, sumAfter]
      unfold u64 at none ⊢
      omega

/-- Two fields that fit. -/
theorem allOrNothing_iff_two : AllOrNothing ⟨4096, 128⟩ 65536 [1024, 2048] :=
  (allOrNothing_iff (h := ⟨4096, 128⟩) ⟨by decide, by decide⟩ 65536 [1024, 2048]).mpr
    (Or.inl (by decide))

/-- The second field does not fit, but the first one stays allocated. -/
theorem allocateFields_leaks :
    Valid ⟨4096, 0⟩ ∧ (allocateFields 65536 ⟨4096, 0⟩ [1024, 8192]).2.2 = false ∧
      (allocateFields 65536 ⟨4096, 0⟩ [1024, 8192]).1.freeSpaceUsed = 1024 ∧
        ¬AllOrNothing ⟨4096, 0⟩ 65536 [1024, 8192] := by
  have failed : (allocateFields 65536 ⟨4096, 0⟩ [1024, 8192]).2.2 = false := by decide +kernel
  have used : (allocateFields 65536 ⟨4096, 0⟩ [1024, 8192]).1.freeSpaceUsed = 1024 := by
    decide +kernel
  refine ⟨⟨by decide, by decide⟩, failed, used, ?_⟩
  rintro (⟨done, -⟩ | ⟨-, kept⟩)
  · exact absurd (failed.symm.trans done) (by decide)
  · exact absurd (used.symm.trans kept) (by decide)

end ShmProtoHeader

end Fuxi.Shm.Topo
