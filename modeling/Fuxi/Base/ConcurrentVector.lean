import Fuxi.Lib.Machine
import Fuxi.Lib.Word

/-!
# `ConcurrentVector`

The elements lie in blocks of equal size, and a table holds the pointers to the blocks. A
thread that needs more blocks copies the table, creates the missing blocks and replaces the
table by a compare-exchange; when it loses, it deletes its blocks and starts over with the
table of the winner. One step of a thread is one access to the pointer of the table, together
with what the thread does until the next one.
-/

namespace Fuxi.Base

open Lib

variable {Tid : Type*}

namespace ConcurrentVector

/-- `Meta`. A block has `2 ^ blockMaskBits` elements, and `block_size` returns their number as
a `uint32_t`. -/
structure Meta where
  blockMaskBits : Nat
  small : blockMaskBits ≤ 31

namespace Meta

variable (m : Meta)

def blockSize : Nat := 2 ^ m.blockMaskBits

def blockMask : Nat := m.blockSize - 1

/-- `block_index` returns a `uint32_t`. -/
def blockIndex (index : Nat) : Nat := u32 (index >>> m.blockMaskBits)

def blockOffset (index : Nat) : Nat := u32 (index &&& m.blockMask)

end Meta

/-- The functions that let the vector grow. -/
inductive Call
  | reserve (size : Nat)
  | ensure (index : Nat)
  | reservedSnapshot (size : Nat)
  deriving DecidableEq

/-- What a call passes to `get_qualified_block_table`. -/
def Call.expectBlockNum (m : Meta) : Call → Nat
  | .reserve size => m.blockIndex (u64 (size + m.blockMask))
  | .ensure index => u32 (m.blockIndex index + 1)
  | .reservedSnapshot size => m.blockIndex (u64 (size + m.blockMask))

/-- Where a thread is: outside, or in front of the compare-exchange of
`get_qualified_block_table_slow`. The arguments are the locals `block_table` and `block_num`
and the contents of `new_block_table`. -/
inductive Pc
  | idle
  | exchange (call : Call) (blockTable blockNum : Nat) (newBlocks : List Nat)

/-- The vector and the threads. A table is known by its position in `tables`, the list of all
tables that have ever been published: `EMPTY_BLOCK_TABLE` comes first, and a table that has
been retired stays where it is. A block is known by its number in the order of creation.
`returned` lists the calls that have returned, each with its table. -/
structure State (Tid : Type*) where
  blockTable : Nat := 0
  tables : List (List Nat) := [[]]
  created : Nat := 0
  deleted : List Nat := []
  retired : List Nat := []
  pc : Tid → Pc := fun _ => .idle
  returned : List (Call × Nat) := []

/-- A thread calls one of the functions, up to the first access, or it goes on. -/
inductive Move
  | call (c : Call)
  | exchange

namespace State

/-- The blocks of a table. -/
def table (s : State Tid) (p : Nat) : List Nat := s.tables.getD p []

variable [DecidableEq Tid]

def goto (s : State Tid) (t : Tid) (p : Pc) : State Tid :=
  { s with pc := Function.update s.pc t p }

/-- A call returns a table. -/
def ret (s : State Tid) (t : Tid) (c : Call) (p : Nat) : State Tid :=
  { s.goto t .idle with returned := (c, p) :: s.returned }

/-- Copy the blocks of a table and create the missing ones. -/
def prepare (m : Meta) (s : State Tid) (t : Tid) (c : Call) (p : Nat) : State Tid :=
  let blockNum := (s.table p).length
  let missing := c.expectBlockNum m - blockNum
  { s.goto t (.exchange c p blockNum (s.table p ++ List.range' s.created missing)) with
    created := s.created + missing }

/-- Go on with the table that has been read: it is large enough, or a new one is prepared. -/
def qualify (m : Meta) (s : State Tid) (t : Tid) (c : Call) : State Tid :=
  if c.expectBlockNum m ≤ (s.table s.blockTable).length then s.ret t c s.blockTable
  else s.prepare m t c s.blockTable

/-- The compare-exchange succeeds: the old table is retired. -/
def publish (s : State Tid) (t : Tid) (newBlocks : List Nat) : State Tid :=
  { s.goto t .idle with
    blockTable := s.tables.length
    tables := s.tables ++ [newBlocks]
    retired := s.blockTable :: s.retired }

/-- The compare-exchange fails: the blocks behind the copied ones are deleted. -/
def discard (s : State Tid) (t : Tid) (blockNum : Nat) (newBlocks : List Nat) : State Tid :=
  { s.goto t .idle with deleted := newBlocks.drop blockNum ++ s.deleted }

def step (m : Meta) (s : State Tid) : Tid × Move → Option (State Tid)
  | (t, .call c) =>
    match s.pc t with
    | .idle => some (s.qualify m t c)
    | .exchange .. => none
  | (t, .exchange) =>
    match s.pc t with
    | .idle => none
    | .exchange c p n newBlocks =>
      if s.blockTable = p then some ((s.publish t newBlocks).ret t c s.tables.length)
      else some ((s.discard t n newBlocks).qualify m t c)

end State

/-- The interleavings of any number of threads that use one vector. -/
def machine (Tid : Type*) [DecidableEq Tid] (m : Meta) : Machine (State Tid) (Tid × Move) where
  start s := s = {}
  step := State.step m

/-! ## Tables that are large enough -/

/-- The elements that the call promises to be accessible lie in the blocks of the table. -/
def Call.Covered (m : Meta) (blockNum : Nat) : Call → Prop
  | .reserve size => size ≤ blockNum * m.blockSize
  | .ensure index => index < blockNum * m.blockSize
  | .reservedSnapshot size => size ≤ blockNum * m.blockSize

/-- The number of blocks that the call needs is computed without a wrap-around. -/
def Call.Fits (m : Meta) : Call → Prop
  | .reserve size => size + m.blockMask < 2 ^ 64 ∧ (size + m.blockMask) / m.blockSize < 2 ^ 32
  | .ensure index => index / m.blockSize + 1 < 2 ^ 32
  | .reservedSnapshot size =>
    size + m.blockMask < 2 ^ 64 ∧ (size + m.blockMask) / m.blockSize < 2 ^ 32

namespace Meta

variable (m : Meta)

theorem blockSize_pos : 0 < m.blockSize := Nat.two_pow_pos _

theorem blockSize_le : m.blockSize ≤ 2147483648 :=
  Nat.pow_le_pow_right (show 0 < 2 by decide) m.small

theorem blockIndex_eq (index : Nat) : m.blockIndex index = u32 (index / m.blockSize) := by
  rw [blockIndex, Nat.shiftRight_eq_div_pow, blockSize]

end Meta

theorem expectBlockNum_lt (m : Meta) (c : Call) : c.expectBlockNum m < 4294967296 := by
  cases c <;> exact u32_lt _

/-- `ensure` asks for the blocks up to the one of its index. -/
theorem expectBlockNum_ensure (m : Meta) {index : Nat}
    (fits : index / m.blockSize + 1 < 4294967296) :
    (Call.ensure index).expectBlockNum m = index / m.blockSize + 1 := by
  rw [Call.expectBlockNum, m.blockIndex_eq, u32_of_lt (x := index / m.blockSize) (by omega),
    u32_of_lt fits]

/-- Both functions that are given a size need as many blocks as cover it. -/
theorem size_covered_iff (m : Meta) {size n : Nat}
    (enough : m.blockIndex (u64 (size + m.blockMask)) ≤ n) (small : n < 4294967296) : size ≤ n * m.blockSize ↔
      size + m.blockMask < 2 ^ 64 ∧ (size + m.blockMask) / m.blockSize < 2 ^ 32 := by
  have pos := m.blockSize_pos
  have le := m.blockSize_le
  have mask : m.blockMask + 1 = m.blockSize := Nat.sub_add_cancel pos
  have most : n * m.blockSize ≤ 4294967295 * 2147483648 := Nat.mul_le_mul (by omega) le
  constructor
  · intro covered
    have blocks : (size + m.blockMask) / m.blockSize < n + 1 := by
      rw [Nat.div_lt_iff_lt_mul pos, Nat.succ_mul]
      omega
    exact ⟨by omega, by omega⟩
  · rintro ⟨fits, blocks⟩
    rw [u64_of_lt fits, m.blockIndex_eq, u32_of_lt blocks] at enough
    have split := Nat.lt_mul_div_succ (size + m.blockMask) pos
    have := Nat.mul_le_mul_left m.blockSize enough
    rw [Nat.mul_succ] at split
    rw [Nat.mul_comm]
    omega

/-- A table with as many blocks as were asked for covers the call exactly if their number was
computed without a wrap-around. -/
theorem Call.covered_iff (m : Meta) {c : Call} {n : Nat} (enough : c.expectBlockNum m ≤ n)
    (small : n < 4294967296) : c.Covered m n ↔ c.Fits m := by
  cases c with
  | reserve size => exact size_covered_iff m enough small
  | reservedSnapshot size => exact size_covered_iff m enough small
  | ensure index =>
    have pos := m.blockSize_pos
    simp only [Covered, Fits]
    rw [← Nat.div_lt_iff_lt_mul pos]
    refine ⟨fun covered => by omega, fun fits => ?_⟩
    rw [expectBlockNum_ensure m fits] at enough
    omega

end ConcurrentVector

end Fuxi.Base
