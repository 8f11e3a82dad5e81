import Mathlib.Data.List.Range
import Fuxi.Base.ConcurrentVector.BlockSize

/-!
# Iterating over a snapshot

`Snapshot::for_each` hands its callback one segment of elements for each block. The first
segment starts in the middle of its block, and the last one ends there; when the range ends on
the boundary of a block, there is no last segment.
-/

namespace Fuxi.Base.ConcurrentVector

open Lib

/-- What the callback gets: a pointer of the table and the offsets of `iter` and `end` in that
block. -/
structure Segment where
  block : Nat
  first : Nat
  last : Nat
  deriving DecidableEq

/-- The indices of the elements of a segment. -/
def Segment.elements (m : Meta) (r : Segment) : List Nat :=
  List.range' (r.block * m.blockSize + r.first) (r.last - r.first)

namespace Snapshot

variable (m : Meta)

/-- `size`, where `blockNum` is the size of the table. -/
def size (blockNum : Nat) : Nat := u64 (blockNum <<< m.blockMaskBits)

/-- The loop of `for_each`, from `block_index` and `block_offset` to the end of the range. It
counts a `uint32_t` up to the block of the end, which takes so many rounds. -/
def walk (endBlockOffset : Nat) : Nat → Nat → Nat → List Segment
  | 0, blockIndex, blockOffset =>
    if blockOffset ≠ endBlockOffset then [⟨blockIndex, blockOffset, endBlockOffset⟩] else []
  | rounds + 1, blockIndex, blockOffset =>
    ⟨blockIndex, blockOffset, m.blockSize⟩ :: walk endBlockOffset rounds (u32 (blockIndex + 1)) 0

/-- `for_each`; both functions of this name do the same. -/
def forEach (first last : Nat) : List Segment :=
  walk m (m.blockOffset last) (sub32 (m.blockIndex last) (m.blockIndex first))
    (m.blockIndex first) (m.blockOffset first)

/-- The loop ends after these rounds and not earlier. -/
theorem rounds_exact (first last : Nat) :
    let rounds := sub32 (m.blockIndex last) (m.blockIndex first)
    u32 (m.blockIndex first + rounds) = m.blockIndex last ∧
      ∀ i < rounds, u32 (m.blockIndex first + i) ≠ m.blockIndex last := by
  have := u32_lt (first >>> m.blockMaskBits)
  have := u32_lt (last >>> m.blockMaskBits)
  simp only [Meta.blockIndex] at *
  unfold sub32 u32 at *
  exact ⟨by omega, fun i lt => by omega⟩

/-- The callback gets each element of a range once, in order, and every segment is a piece of
one block. -/
structure Partition (m : Meta) (first last : Nat) (segments : List Segment) : Prop where
  elements : segments.flatMap (Segment.elements m) = List.range' first (last - first)
  inBlock : ∀ r ∈ segments, r.first < r.last ∧ r.last ≤ m.blockSize

namespace Partition

variable {m : Meta} {first last : Nat} {segments : List Segment}

/-- The elements of a segment are those of the range that lie in its block. -/
theorem bounds (h : Partition m first last segments) {r : Segment} (mem : r ∈ segments) :
    first ≤ r.block * m.blockSize + r.first ∧ r.block * m.blockSize + r.last ≤ last := by
  have inBlock := h.inBlock r mem
  have within : ∀ x ∈ r.elements m, first ≤ x ∧ x < last := fun x hx => by
    have range := h.elements ▸ List.mem_flatMap.mpr ⟨r, mem, hx⟩
    have := List.mem_range'_1.mp range
    omega
  have low := within (r.block * m.blockSize + r.first) (List.mem_range'_1.mpr (by omega))
  have high := within (r.block * m.blockSize + r.last - 1) (List.mem_range'_1.mpr (by omega))
  exact ⟨low.1, by omega⟩

/-- Only pointers of blocks that hold elements of the range are read. -/
theorem block_lt (h : Partition m first last segments) {blockNum : Nat}
    (covered : last ≤ blockNum * m.blockSize) {r : Segment} (mem : r ∈ segments) :
    r.block < blockNum := by
  have bounds := h.bounds mem
  have inBlock := h.inBlock r mem
  exact Nat.lt_of_mul_lt_mul_right (a := m.blockSize) (by omega)

end Partition

variable {m : Meta}

theorem walk_partition {endBlockOffset rounds blockIndex blockOffset : Nat}
    (few : blockIndex + rounds < 4294967296) (start : blockOffset < m.blockSize)
    (stop : endBlockOffset < m.blockSize) (le : rounds = 0 → blockOffset ≤ endBlockOffset) :
    Partition m (blockIndex * m.blockSize + blockOffset)
      ((blockIndex + rounds) * m.blockSize + endBlockOffset)
      (walk m endBlockOffset rounds blockIndex blockOffset) := by
  induction rounds generalizing blockIndex blockOffset with
  | zero =>
    have le := le rfl
    rw [Nat.add_zero]
    unfold walk
    split_ifs with more
    · refine ⟨?_, ?_⟩
      · simp only [List.flatMap_singleton, Segment.elements]
        congr 1
        omega
      · rintro r mem
        rw [List.mem_singleton.mp mem]
        exact ⟨lt_of_le_of_ne le more, stop.le⟩
    · rw [not_not] at more
      refine ⟨?_, nofun⟩
      rw [more, Nat.sub_self]
      rfl
  | succ rounds ih =>
    have next : u32 (blockIndex + 1) = blockIndex + 1 := u32_of_lt (by omega)
    have rest := @ih (blockIndex + 1) 0 (by omega) (by omega) fun _ => Nat.zero_le _
    have same : blockIndex + 1 + rounds = blockIndex + (rounds + 1) := by omega
    rw [Nat.add_zero, same] at rest
    have most : (blockIndex + 1) * m.blockSize ≤ (blockIndex + (rounds + 1)) * m.blockSize :=
      Nat.mul_le_mul_right _ (by omega)
    have split : (blockIndex + 1) * m.blockSize =
        blockIndex * m.blockSize + blockOffset + (m.blockSize - blockOffset) := by
      rw [Nat.succ_mul]
      omega
    rw [walk, next]
    refine ⟨?_, fun r mem => ?_⟩
    · simp only [List.flatMap_cons, rest.elements, Segment.elements]
      rw [split, List.range'_append_1]
      congr 1
      omega
    · obtain rfl | mem := List.mem_cons.mp mem
      · exact ⟨start, le_rfl⟩
      · exact rest.inBlock r mem

/-- A range that ends in one of the first `2 ^ 32` blocks is cut into segments. -/
theorem forEach_partition {first last : Nat} (le : first ≤ last)
    (fits : last / m.blockSize < 4294967296) : Partition m first last (forEach m first last) := by
  have blocks := Nat.div_le_div_right (c := m.blockSize) le
  have wholeFirst := Nat.div_add_mod' first m.blockSize
  have wholeLast := Nat.div_add_mod' last m.blockSize
  have few : first / m.blockSize + (last / m.blockSize - first / m.blockSize) =
      last / m.blockSize := by omega
  rw [forEach, m.blockIndex_eq, m.blockIndex_eq, m.blockOffset_eq, m.blockOffset_eq,
    u32_of_lt fits, u32_of_lt (blocks.trans_lt fits), sub32_eq blocks (Nat.lt_add_left _ fits)]
  have walked := walk_partition (few.trans_lt fits) (Nat.mod_lt first m.blockSize_pos)
    (Nat.mod_lt last m.blockSize_pos) fun same => ?_
  · rw [few, wholeFirst, wholeLast] at walked
    exact walked
  · have eq : first / m.blockSize = last / m.blockSize := by omega
    rw [eq] at wholeFirst
    omega

end Snapshot

end Fuxi.Base.ConcurrentVector
