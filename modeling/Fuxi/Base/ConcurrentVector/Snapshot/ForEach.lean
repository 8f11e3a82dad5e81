import Fuxi.Base.ConcurrentVector.Growth
import Fuxi.Base.ConcurrentVector.Snapshot
import Fuxi.Base.ConcurrentVector.StaticMeta
import Fuxi.Lib.Loop
import Fuxi.Lib.Write

/-!
# Iterating for every block size

`Snapshot::for_each` with its callback, and `copy_n` and `fill_n`, which are written with it. With
up to `2 ^ 31` elements in a block, each range is handed out in segments of its elements. With more
of them `block_size` returns zero, so that a range must not leave its stretch of `2 ^ 32` elements.
-/

namespace Fuxi.Base.ConcurrentVector

open Lib

/-- A `Snapshot`: the pointers of a table to its blocks, which are different. The number of blocks
has been a `uint32_t` where the table was created. -/
structure TableSnapshot where
  blockMeta : BlockMeta
  blocks : List Nat
  few : blocks.length < 4294967296
  distinct : blocks.Nodup

/-- The locals of `for_each`, and the state of its callback. -/
structure Cursor (σ : Type*) where
  blockIndex : Nat
  blockOffset : Nat
  state : σ

/-- The elements of a segment: the number of the block, and the offset. -/
def Segment.places (r : Segment) : List (Nat × Nat) :=
  (List.range' r.first (r.last - r.first)).map fun offset => (r.block, offset)

namespace TableSnapshot

variable {σ α : Type*} (s : TableSnapshot)

/-- `size`. -/
def size : Nat := u64 (s.blocks.length <<< s.blockMeta.blockMaskBits)

/-- The number of the block of an element, and its offset there. -/
def place (index : Nat) : Nat × Nat :=
  (s.blockMeta.blockIndex index, s.blockMeta.blockOffset index)

/-- The reference that `operator[]` returns: a block and an offset. -/
def element (index : Nat) : Option (Nat × Nat) :=
  s.blocks[(s.place index).1]?.map fun block => (block, (s.place index).2)

/-- The locals before the loop. -/
def start (first : Nat) (state : σ) : Cursor σ where
  blockIndex := s.blockMeta.blockIndex first
  blockOffset := s.blockMeta.blockOffset first
  state := state

/-- The condition of the loop. -/
def before (last : Nat) (c : Cursor σ) : Bool := c.blockIndex ≠ s.blockMeta.blockIndex last

/-- The body of the loop. -/
def nextBlock (callback : Segment → σ → σ) (c : Cursor σ) : Cursor σ where
  blockIndex := u32 (c.blockIndex + 1)
  blockOffset := 0
  state := callback ⟨c.blockIndex, c.blockOffset, s.blockMeta.blockSize⟩ c.state

/-- What comes after the loop. -/
def lastBlock (endBlockOffset : Nat) (callback : Segment → σ → σ) (c : Cursor σ) : σ :=
  if c.blockOffset ≠ endBlockOffset then
    callback ⟨c.blockIndex, c.blockOffset, endBlockOffset⟩ c.state
  else c.state

/-- `for_each`, with so many rounds of its loop; both functions of this name do the same. -/
def forEach (callback : Segment → σ → σ) (rounds first last : Nat) (state : σ) : Option σ :=
  (loop (s.before last) (s.nextBlock callback) rounds (s.start first state)).map
    (lastBlock (s.blockMeta.blockOffset last) callback)

/-- A callback that writes down its calls. -/
def record (r : Segment) (calls : List Segment) : List Segment := calls ++ [r]

/-- The calls of the callback. -/
def calls (rounds first last : Nat) : Option (List Segment) :=
  s.forEach record rounds first last []

/-- The memory of a segment. Nothing is known of a pointer behind the end of the table. -/
def cells (r : Segment) : Option (List (Nat × Nat)) :=
  s.blocks[r.block]?.map fun block =>
    (List.range' r.first (r.last - r.first)).map fun offset => (block, offset)

/-- The callback of `copy_n`, with the memory and the iterator `begin`. `std::copy_n` copies nothing
if the segment ends before it starts. -/
def copySegment (source : Int → α) (r : Segment) (state : Option ((Nat × Nat → α) × Int)) :
    Option ((Nat × Nat → α) × Int) :=
  state.bind fun (memory, start) => (s.cells r).map fun cells =>
    (write (fun i => source (start + i)) cells memory, start + (r.last - r.first : Int))

/-- `copy_n`, with the values that the iterator runs through. -/
def copyN (source : Int → α) (rounds size offset : Nat) (memory : Nat × Nat → α) :
    Option (Nat × Nat → α) :=
  (s.forEach (s.copySegment source) rounds offset (u64 (offset + size)) (some (memory, 0))).join.map
    Prod.fst

/-- The callback of `fill_n`. `std::fill` does not stop if the segment ends before it starts. -/
def fillSegment (value : α) (r : Segment) (state : Option (Nat × Nat → α)) :
    Option (Nat × Nat → α) :=
  state.bind fun memory => (s.cells r).bind fun cells =>
    if r.first ≤ r.last then some (write (fun _ => value) cells memory) else none

/-- `fill_n`. -/
def fillN (value : α) (rounds offset size : Nat) (memory : Nat × Nat → α) :
    Option (Nat × Nat → α) :=
  (s.forEach (s.fillSegment value) rounds offset (u64 (offset + size)) (some memory)).join

/-! ## What is promised -/

/-- The calls hand out the elements of a range in order, each call some elements of one block, and
only the pointers of their blocks are read. -/
structure Covers (first last : Nat) (calls : List Segment) : Prop where
  elements : calls.flatMap Segment.places = (List.range' first (last - first)).map s.place
  inBlock : ∀ r ∈ calls, r.first < r.last ∧ r.last ≤ 2 ^ s.blockMeta.exponent
  read : ∀ r ∈ calls, r.block < s.blocks.length ∧
    ∃ index, first ≤ index ∧ index < last ∧ (s.place index).1 = r.block

/-- The elements from an offset on have got these values, and nothing else has changed. -/
def Written (offset size : Nat) (values : Nat → α) (memory memory' : Nat × Nat → α) : Prop :=
  (∀ j < size, ∃ c, s.element (offset + j) = some c ∧ memory' c = values j) ∧
    ∀ c, (∀ j < size, s.element (offset + j) ≠ some c) → memory' c = memory c

/-- What is promised for a range of elements. -/
structure Serves (α : Type*) (s : TableSnapshot) (first last : Nat) : Prop where
  forEach : ∃ calls, (∀ rounds, 4294967296 ≤ rounds → s.calls rounds first last = some calls) ∧
    s.Covers first last calls
  copyN : ∀ (source : Int → α) (memory : Nat × Nat → α), ∃ memory',
    (∀ rounds, 4294967296 ≤ rounds →
      s.copyN source rounds (last - first) first memory = some memory') ∧
    s.Written first (last - first) (fun j => source j) memory memory'
  fillN : ∀ (value : α) (memory : Nat × Nat → α), ∃ memory',
    (∀ rounds, 4294967296 ≤ rounds →
      s.fillN value rounds first (last - first) memory = some memory') ∧
    s.Written first (last - first) (fun _ => value) memory memory'

variable {s : TableSnapshot} {first last : Nat}

/-! ## The elements of a table -/

theorem size_eq (s : TableSnapshot) : s.size = s.blocks.length * 2 ^ s.blockMeta.blockMaskBits := by
  have few := s.few
  have le : 2 ^ s.blockMeta.blockMaskBits ≤ 2 ^ 32 :=
    Nat.pow_le_pow_right (by decide) s.blockMeta.blockMaskBits_le
  have := Nat.mul_le_mul (Nat.le_sub_one_of_lt few) le
  rw [size, Nat.shiftLeft_eq, u64_of_lt (by omega)]

/-- No digits are lost where an element of the table is looked up. -/
theorem place_eq {index : Nat} (lt : index < s.size) :
    s.place index =
      (index / 2 ^ s.blockMeta.blockMaskBits, index % 2 ^ s.blockMeta.blockMaskBits) := by
  have block : index / 2 ^ s.blockMeta.blockMaskBits < s.blocks.length :=
    Nat.div_lt_of_lt_mul (Nat.mul_comm _ _ ▸ s.size_eq ▸ lt)
  rw [place, BlockMeta.blockIndex_eq, BlockMeta.blockOffset_eq, u32_of_lt (block.trans s.few)]

theorem place_lt {index : Nat} (lt : index < s.size) : (s.place index).1 < s.blocks.length := by
  rw [place_eq lt]
  exact Nat.div_lt_of_lt_mul (Nat.mul_comm _ _ ▸ s.size_eq ▸ lt)

/-- Different elements lie at different places. -/
theorem place_inj {i j : Nat} (hi : i < s.size) (hj : j < s.size) (eq : s.place i = s.place j) :
    i = j := by
  rw [place_eq hi, place_eq hj, Prod.mk.injEq] at eq
  rw [← Nat.div_add_mod i (2 ^ s.blockMeta.blockMaskBits), eq.1, eq.2, Nat.div_add_mod]

/-- The cell of a place. -/
def cell (s : TableSnapshot) (p : Nat × Nat) : Nat × Nat := (s.blocks.getD p.1 0, p.2)

theorem element_eq {index : Nat} (lt : index < s.size) :
    s.element index = some (s.cell (s.place index)) := by
  rw [element, cell, List.getD_eq_getElem _ _ (place_lt lt),
    List.getElem?_eq_getElem (place_lt lt)]
  rfl

theorem cell_place_inj {i j : Nat} (hi : i < s.size) (hj : j < s.size)
    (eq : s.cell (s.place i) = s.cell (s.place j)) : i = j := by
  have bi := place_lt hi
  have bj := place_lt hj
  rw [cell, cell, List.getD_eq_getElem _ _ bi, List.getD_eq_getElem _ _ bj, Prod.mk.injEq] at eq
  have block : (s.place i).1 = (s.place j).1 := (s.distinct.getElem_inj_iff).mp eq.1
  exact place_inj hi hj (Prod.ext block eq.2)

theorem cells_eq {r : Segment} (lt : r.block < s.blocks.length) :
    s.cells r = some (r.places.map s.cell) := by
  rw [cells, List.getElem?_eq_getElem lt, Segment.places, List.map_map]
  refine congrArg some (List.map_congr_left fun offset _ => ?_)
  rw [Function.comp_apply, cell, List.getD_eq_getElem _ _ lt]

/-! ## The callbacks of a cover -/

/-- The locals with the state of a callback that has got the calls that are written down. -/
def replay {σ : Type*} (callback : Segment → σ → σ) (state : σ) (c : Cursor (List Segment)) :
    Cursor σ where
  blockIndex := c.blockIndex
  blockOffset := c.blockOffset
  state := c.state.foldl (fun state r => callback r state) state

theorem nextBlock_replay {σ : Type*} (s : TableSnapshot) (callback : Segment → σ → σ) (state : σ)
    (c : Cursor (List Segment)) : s.nextBlock callback (replay callback state c) =
      replay callback state (s.nextBlock record c) := by
  simp only [replay, nextBlock, record, List.foldl_append, List.foldl_cons, List.foldl_nil]

theorem lastBlock_replay {σ : Type*} (endBlockOffset : Nat) (callback : Segment → σ → σ)
    (state : σ) (c : Cursor (List Segment)) :
    lastBlock endBlockOffset callback (replay callback state c) =
      (lastBlock endBlockOffset record c).foldl (fun state r => callback r state) state := by
  by_cases more : c.blockOffset ≠ endBlockOffset
  · have more' : (replay callback state c).blockOffset ≠ endBlockOffset := more
    rw [lastBlock, lastBlock, if_pos more, if_pos more', record, List.foldl_append]
    rfl
  · have stop' : ¬(replay callback state c).blockOffset ≠ endBlockOffset := more
    rw [lastBlock, lastBlock, if_neg more, if_neg stop']
    rfl

/-- `for_each` is nothing but its calls. -/
theorem forEach_eq_foldl {σ : Type*} (callback : Segment → σ → σ) (rounds first last : Nat)
    (state : σ) : s.forEach callback rounds first last state =
      (s.calls rounds first last).map fun calls =>
        calls.foldl (fun state r => callback r state) state := by
  have cond (c : Cursor (List Segment)) :
      s.before last (replay callback state c) = s.before last c := rfl
  have run := loop_map cond (s.nextBlock_replay callback state) rounds (s.start first [])
  rw [forEach, calls, forEach, Option.map_map]
  refine (congrArg (Option.map _) run).trans ?_
  rw [Option.map_map]
  exact congrFun (congrArg Option.map (funext fun c => lastBlock_replay _ callback state c)) _

theorem places_length (r : Segment) : r.places.length = r.last - r.first := by
  rw [Segment.places, List.length_map, List.length_range']

variable {α : Type*}

/-- `copy_n` writes the values one after the other to the places of its calls. -/
theorem foldl_copySegment (source : Int → α) {calls : List Segment}
    (proper : ∀ r ∈ calls, r.first ≤ r.last ∧ r.block < s.blocks.length)
    (memory : Nat × Nat → α) (start : Int) :
    calls.foldl (fun state r => s.copySegment source r state) (some (memory, start)) =
      some (write (fun i => source (start + i)) ((calls.flatMap Segment.places).map s.cell) memory,
        start + (calls.flatMap Segment.places).length) := by
  induction calls generalizing memory start with
  | nil => simp [write]
  | cons r calls ih =>
    obtain ⟨le, lt⟩ := proper r List.mem_cons_self
    have length : (r.last - r.first : Int) = (r.places.length : Int) := by
      rw [places_length]
      omega
    have first : s.copySegment source r (some (memory, start)) =
        some (write (fun i => source (start + i)) (r.places.map s.cell) memory,
          start + r.places.length) := by
      rw [copySegment, Option.bind_some, cells_eq lt, length]
      rfl
    rw [List.foldl_cons, first, ih (fun r mem => proper r (List.mem_cons_of_mem _ mem)),
      List.flatMap_cons, List.map_append, write_append, List.length_append, List.length_map]
    simp only [Nat.cast_add, Int.add_assoc]

/-- `fill_n` writes its value to the places of its calls. -/
theorem foldl_fillSegment (value : α) {calls : List Segment}
    (proper : ∀ r ∈ calls, r.first ≤ r.last ∧ r.block < s.blocks.length)
    (memory : Nat × Nat → α) :
    calls.foldl (fun state r => s.fillSegment value r state) (some memory) =
      some (write (fun _ => value) ((calls.flatMap Segment.places).map s.cell) memory) := by
  induction calls generalizing memory with
  | nil => rfl
  | cons r calls ih =>
    obtain ⟨le, lt⟩ := proper r List.mem_cons_self
    have first : s.fillSegment value r (some memory) =
        some (write (fun _ => value) (r.places.map s.cell) memory) := by
      rw [fillSegment, Option.bind_some, cells_eq lt, Option.bind_some, if_pos le]
    rw [List.foldl_cons, first, ih (fun r mem => proper r (List.mem_cons_of_mem _ mem)),
      List.flatMap_cons, List.map_append, write_append]

/-- What is written to the places of the calls is written to the elements of the range. -/
theorem Covers.written {calls : List Segment} (covers : s.Covers first last calls)
    (within : last ≤ s.size) (values : Nat → α) (memory : Nat × Nat → α) :
    s.Written first (last - first) values memory
      (write values ((calls.flatMap Segment.places).map s.cell) memory) := by
  have cells : (calls.flatMap Segment.places).map s.cell =
      (List.range' first (last - first)).map fun index => s.cell (s.place index) := by
    rw [covers.elements, List.map_map]
    rfl
  have inside {index : Nat} (mem : index ∈ List.range' first (last - first)) :
      index < s.size := by
    have := List.mem_range'_1.mp mem
    omega
  have once : ((List.range' first (last - first)).map fun index => s.cell (s.place index)).Nodup :=
    List.Nodup.map_on (fun i hi j hj eq => cell_place_inj (inside hi) (inside hj) eq)
      List.nodup_range'
  rw [cells]
  constructor
  · intro j lt
    refine ⟨_, element_eq (by omega), ?_⟩
    have got := @write_getElem _ _ _ values _ memory once j
      (by rwa [List.length_map, List.length_range'])
    rwa [List.getElem_map, List.getElem_range'_1] at got
  · intro c other
    refine write_of_notMem fun mem => ?_
    obtain ⟨index, range, rfl⟩ := List.mem_map.mp mem
    have bounds := List.mem_range'_1.mp range
    have same : first + (index - first) = index := by omega
    exact other (index - first) (by omega) (same.symm ▸ element_eq (inside range))

/-- `copy_n` and `fill_n` do what they promise wherever `for_each` does. -/
theorem serves_of_covers {calls : List Segment} (le : first ≤ last) (within : last ≤ s.size)
    (ends : ∀ rounds, 4294967296 ≤ rounds → s.calls rounds first last = some calls)
    (covers : s.Covers first last calls) : s.Serves α first last := by
  have word : s.size < 18446744073709551616 := Nat.mod_lt _ (by decide)
  have sum : u64 (first + (last - first)) = last := by
    rw [Nat.add_sub_cancel' le, u64_of_lt (within.trans_lt word)]
  have proper (r : Segment) (mem : r ∈ calls) : r.first ≤ r.last ∧ r.block < s.blocks.length :=
    ⟨(covers.inBlock r mem).1.le, (covers.read r mem).1⟩
  refine ⟨⟨calls, ends, covers⟩, fun source memory => ⟨_, fun rounds enough => ?_,
    covers.written within _ memory⟩, fun value memory => ⟨_, fun rounds enough => ?_,
    covers.written within _ memory⟩⟩
  · rw [copyN, sum, forEach_eq_foldl, ends rounds enough, Option.map_some,
      foldl_copySegment source proper]
    simp only [Int.zero_add]
    rfl
  · rw [fillN, sum, forEach_eq_foldl, ends rounds enough, Option.map_some,
      foldl_fillSegment value proper]
    rfl

/-! ## Blocks of at most `2 ^ 31` elements -/

/-- The meta data of a vector whose block size is set at run time, with the same methods. -/
def small (s : TableSnapshot) (few : s.blockMeta.exponent ≤ 31) : Meta :=
  ⟨s.blockMeta.exponent, few⟩

theorem small_bits (few : s.blockMeta.exponent ≤ 31) :
    s.blockMeta.blockMaskBits = (s.small few).blockMaskBits := by
  rw [BlockMeta.blockMaskBits_eq]
  exact min_eq_left (few.trans (by decide))

theorem small_blockIndex (few : s.blockMeta.exponent ≤ 31) (index : Nat) :
    s.blockMeta.blockIndex index = (s.small few).blockIndex index := by
  rw [BlockMeta.blockIndex_eq, small_bits few, Meta.blockIndex_eq, Meta.blockSize]

theorem small_blockOffset (few : s.blockMeta.exponent ≤ 31) (index : Nat) :
    s.blockMeta.blockOffset index = (s.small few).blockOffset index := by
  rw [BlockMeta.blockOffset_eq, small_bits few, Meta.blockOffset_eq, Meta.blockSize]

theorem small_blockSize (few : s.blockMeta.exponent ≤ 31) :
    s.blockMeta.blockSize = (s.small few).blockSize := by
  rw [BlockMeta.blockSize_eq, if_pos (Nat.lt_succ_of_le few)]
  rfl

/-- After so many rounds, what has been called and what is left to be called make up the whole. -/
structure Walked (s : TableSnapshot) (few : s.blockMeta.exponent ≤ 31) (first last rounds : Nat)
    (c : Cursor (List Segment)) : Prop where
  at_ : c.blockIndex = u32 ((s.small few).blockIndex first + rounds)
  whole : c.state ++ Snapshot.walk (s.small few) ((s.small few).blockOffset last)
    (sub32 ((s.small few).blockIndex last) ((s.small few).blockIndex first) - rounds)
    c.blockIndex c.blockOffset = Snapshot.forEach (s.small few) first last

theorem walked_start (few : s.blockMeta.exponent ≤ 31) (first last : Nat) :
    s.Walked few first last 0 (s.start first []) where
  at_ := by
    rw [start, small_blockIndex few, Nat.add_zero]
    exact (u32_u32 _).symm
  whole := by
    rw [start, small_blockIndex few, small_blockOffset few]
    rfl

theorem Walked.next {few : s.blockMeta.exponent ≤ 31} {rounds : Nat} {c : Cursor (List Segment)}
    (h : s.Walked few first last rounds c)
    (lt : rounds < sub32 ((s.small few).blockIndex last) ((s.small few).blockIndex first)) :
    s.Walked few first last (rounds + 1) (s.nextBlock record c) where
  at_ := by
    have next : u32 (u32 ((s.small few).blockIndex first + rounds) + 1) =
        u32 ((s.small few).blockIndex first + (rounds + 1)) := by
      unfold u32
      omega
    exact (congrArg (fun block => u32 (block + 1)) h.at_).trans next
  whole := by
    have whole := h.whole
    rw [← Nat.sub_one_add_one_eq_of_pos (Nat.sub_pos_of_lt lt), Nat.sub_sub] at whole
    rw [← whole, nextBlock, record, List.append_assoc, small_blockSize few]
    rfl

/-- The loop makes the calls that are counted by the distance of the blocks. -/
theorem calls_of_small (few : s.blockMeta.exponent ≤ 31) (first last : Nat) {rounds : Nat}
    (enough : 4294967296 ≤ rounds) :
    s.calls rounds first last = some (Snapshot.forEach (s.small few) first last) := by
  obtain ⟨arrives, earlier⟩ := Snapshot.rounds_exact (s.small few) first last
  have distance := u32_lt (u32 ((s.small few).blockIndex last) +
    (4294967296 - u32 ((s.small few).blockIndex first)))
  rw [← sub32] at distance
  have more (i : Nat)
      (lt : i < sub32 ((s.small few).blockIndex last) ((s.small few).blockIndex first))
      (c : Cursor (List Segment)) (h : s.Walked few first last i c) :
      s.before last c = true ∧ s.Walked few first last (i + 1) (s.nextBlock record c) := by
    refine ⟨?_, h.next lt⟩
    rw [before, small_blockIndex few, h.at_, decide_eq_true_eq]
    exact earlier i lt
  have stop (c : Cursor (List Segment)) (h : s.Walked few first last
      (sub32 ((s.small few).blockIndex last) ((s.small few).blockIndex first)) c) :
      s.before last c = false := by
    rw [before, small_blockIndex few, h.at_, arrives]
    exact decide_eq_false fun ne => ne rfl
  obtain ⟨c, ends, h⟩ := loop_counted (walked_start few first last) more stop
  rw [calls, forEach, ends rounds (by omega), Option.map_some, ← h.whole, Nat.sub_self, lastBlock,
    small_blockOffset few]
  simp only [Snapshot.walk, record]
  split_ifs
  · rfl
  · rw [List.append_nil]

theorem small_size (few : s.blockMeta.exponent ≤ 31) :
    s.size = s.blocks.length * (s.small few).blockSize := by
  rw [size_eq, small_bits few, Meta.blockSize]

/-- The place of an element of a block. -/
theorem small_place (few : s.blockMeta.exponent ≤ 31) {block offset : Nat}
    (fits : offset < (s.small few).blockSize)
    (lt : block * (s.small few).blockSize + offset < s.size) :
    s.place (block * (s.small few).blockSize + offset) = (block, offset) := by
  rw [place_eq lt, small_bits few, ← Meta.blockSize, Nat.mul_comm,
    Nat.mul_add_div (s.small few).blockSize_pos, Nat.mul_add_mod, Nat.div_eq_of_lt fits,
    Nat.mod_eq_of_lt fits, Nat.add_zero]

theorem covers_of_small (few : s.blockMeta.exponent ≤ 31) (le : first ≤ last)
    (within : last ≤ s.size) :
    s.Covers first last (Snapshot.forEach (s.small few) first last) := by
  have covered : last ≤ s.blocks.length * (s.small few).blockSize := small_size few ▸ within
  have fits : last / (s.small few).blockSize < 4294967296 :=
    (Nat.div_le_of_le_mul (Nat.mul_comm _ _ ▸ covered)).trans_lt s.few
  have parts := Snapshot.forEach_partition (m := s.small few) le fits
  refine ⟨?_, parts.inBlock, fun r mem => ⟨parts.block_lt covered mem, ?_⟩⟩
  · rw [← parts.elements, List.map_flatMap]
    refine List.flatMap_congr fun r mem => ?_
    have bounds := parts.bounds mem
    have inBlock := parts.inBlock r mem
    refine List.ext_getElem (by simp [Segment.places, Segment.elements]) fun j _ lt => ?_
    have lt : j < r.last - r.first := by
      rwa [List.length_map, Segment.elements, List.length_range'] at lt
    simp only [Segment.places, Segment.elements, List.getElem_map, List.getElem_range'_1]
    rw [Nat.add_assoc, small_place few (by omega) (by omega)]
  · have bounds := parts.bounds mem
    have inBlock := parts.inBlock r mem
    refine ⟨r.block * (s.small few).blockSize + r.first, bounds.1, by omega, ?_⟩
    rw [small_place few (by omega) (by omega)]

theorem serves_of_small (few : s.blockMeta.exponent ≤ 31) (le : first ≤ last)
    (within : last ≤ s.size) : s.Serves α first last :=
  serves_of_covers le within (fun _ enough => calls_of_small few first last enough)
    (covers_of_small few le within)

/-! ## Larger blocks -/

theorem large_place (large : 32 ≤ s.blockMeta.exponent) {index : Nat} (le : index ≤ s.size) :
    s.place index = (index / 2 ^ 32, index % 2 ^ 32) := by
  have bits : s.blockMeta.blockMaskBits = 32 := by
    rw [BlockMeta.blockMaskBits_eq, min_eq_right large]
  have size := s.size_eq
  have few := s.few
  rw [bits] at size
  have fits : index / 2 ^ 32 < 4294967296 := by omega
  rw [place, BlockMeta.blockIndex_eq, BlockMeta.blockOffset_eq, bits, u32_of_lt fits]

/-- What is called for a range within `2 ^ 32` elements. -/
def onlyCall (first last : Nat) : List Segment :=
  if first % 2 ^ 32 ≠ last % 2 ^ 32 then [⟨first / 2 ^ 32, first % 2 ^ 32, last % 2 ^ 32⟩] else []

/-- There is no round of the loop. -/
theorem calls_of_large (large : 32 ≤ s.blockMeta.exponent) (le : first ≤ last)
    (within : last ≤ s.size) (same : first / 2 ^ 32 = last / 2 ^ 32) (rounds : Nat) :
    s.calls rounds first last = some (onlyCall first last) := by
  have lower := large_place large (le.trans within)
  have upper := large_place large within
  rw [place, Prod.mk.injEq] at lower upper
  have arrived : s.before last (s.start first ([] : List Segment)) = false := by
    rw [before, start, lower.1, upper.1, same]
    exact decide_eq_false fun ne => ne rfl
  rw [calls, forEach, loop_of_not arrived, Option.map_some, start, lower.1, lower.2, upper.2]
  rfl

theorem covers_of_large (large : 32 ≤ s.blockMeta.exponent) (le : first ≤ last)
    (within : last ≤ s.size) (same : first / 2 ^ 32 = last / 2 ^ 32) :
    s.Covers first last (onlyCall first last) := by
  rw [onlyCall]
  split_ifs with more
  · have ordered : first % 2 ^ 32 < last % 2 ^ 32 := by omega
    have short : last % 2 ^ 32 - first % 2 ^ 32 = last - first := by omega
    have start := large_place large (le.trans within)
    refine ⟨?_, fun r mem => ?_, fun r mem => ?_⟩
    · rw [List.flatMap_singleton]
      simp only [Segment.places, short]
      refine List.ext_getElem (by simp) fun j lt _ => ?_
      have lt : j < last - first := by rwa [List.length_map, List.length_range'] at lt
      simp only [List.getElem_map, List.getElem_range'_1]
      rw [large_place large (by omega), Prod.mk.injEq]
      omega
    · have pow : 2 ^ 32 ≤ 2 ^ s.blockMeta.exponent := Nat.pow_le_pow_right (by decide) large
      obtain rfl := List.mem_singleton.mp mem
      exact ⟨ordered, (Nat.mod_lt last (by decide)).le.trans pow⟩
    · obtain rfl := List.mem_singleton.mp mem
      have nonempty : first < last := by omega
      have block := place_lt (nonempty.trans_le within)
      rw [start] at block
      exact ⟨block, first, le_rfl, nonempty, congrArg Prod.fst start⟩
  · have eq : last = first := by omega
    subst eq
    refine ⟨?_, nofun, nofun⟩
    rw [Nat.sub_self]
    rfl

theorem serves_of_large (large : 32 ≤ s.blockMeta.exponent) (le : first ≤ last)
    (within : last ≤ s.size) (same : first / 2 ^ 32 = last / 2 ^ 32) : s.Serves α first last :=
  serves_of_covers le within (fun rounds _ => calls_of_large large le within same rounds)
    (covers_of_large large le within same)

/-- Otherwise the first call gets a segment that ends at offset zero. -/
theorem not_serves_of_large (large : 32 ≤ s.blockMeta.exponent) (le : first ≤ last)
    (within : last ≤ s.size) (ne : first / 2 ^ 32 ≠ last / 2 ^ 32) : ¬s.Serves α first last := by
  rintro ⟨⟨calls, ends, covers⟩, -, -⟩
  have lower := large_place large (le.trans within)
  have upper := large_place large within
  rw [place, Prod.mk.injEq] at lower upper
  obtain ⟨rounds, enough⟩ : ∃ rounds, 4294967296 ≤ rounds := ⟨_, le_rfl⟩
  have entered : s.before last (s.start first ([] : List Segment)) = true := by
    rw [before, start, lower.1, upper.1]
    exact decide_eq_true ne
  have run := ends (rounds + 1) (by omega)
  rw [TableSnapshot.calls, forEach, loop_succ entered, Option.map_eq_some_iff] at run
  obtain ⟨c, run, rfl⟩ := run
  let r : Segment :=
    ⟨s.blockMeta.blockIndex first, s.blockMeta.blockOffset first, s.blockMeta.blockSize⟩
  have keeps (c : Cursor (List Segment)) (mem : r ∈ c.state) : r ∈ (s.nextBlock record c).state :=
    List.mem_append_left _ mem
  have called : r ∈ c.state := @loop_invariant (Cursor (List Segment)) _ _ _ _
    (fun c => r ∈ c.state) keeps _ (List.mem_singleton_self r) run
  have kept : r ∈ lastBlock (s.blockMeta.blockOffset last) record c := by
    rw [lastBlock]
    split_ifs
    · exact List.mem_append_left _ called
    · exact called
  have proper : r.first < s.blockMeta.blockSize := (covers.inBlock r kept).1
  rw [BlockMeta.blockSize_eq, if_neg (not_lt.mpr large)] at proper
  exact Nat.not_lt_zero _ proper

/-- A range of elements gets what is promised exactly if a block has at most `2 ^ 31` elements, or
both ends of the range have the same high digits. -/
theorem serves_iff (α : Type*) (s : TableSnapshot) {first last : Nat} (le : first ≤ last)
    (within : last ≤ s.size) :
    s.Serves α first last ↔ s.blockMeta.exponent ≤ 31 ∨ first / 2 ^ 32 = last / 2 ^ 32 := by
  obtain few | large := Nat.lt_or_ge s.blockMeta.exponent 32
  · have few := Nat.le_of_lt_succ few
    exact iff_of_true (serves_of_small few le within) (Or.inl few)
  · constructor
    · intro serves
      by_contra none
      exact not_serves_of_large large le within (fun same => none (Or.inr same)) serves
    · rintro (few | same)
      · omega
      · exact serves_of_large large le within same

/-- Three blocks of eight elements: a range from the first to the last one. -/
theorem serves_iff_three :
    let s : TableSnapshot := ⟨.dynamic ⟨3, by decide⟩, [7, 3, 5], by decide, by decide⟩
    s.Serves Nat 5 19 ∧ s.calls 2 5 19 = some [⟨0, 5, 8⟩, ⟨1, 0, 8⟩, ⟨2, 0, 3⟩] :=
  ⟨(serves_iff Nat _ (by decide) (by decide)).mpr (Or.inl (by decide)), by decide⟩

/-- The template argument `2 ^ 32` is accepted, and a table of one block has `2 ^ 32` elements, but
the only call for all of them gets none. -/
theorem not_serves_block :
    let s : TableSnapshot := ⟨.static ⟨32, by decide⟩, [0], by decide, by decide⟩
    popcount (2 ^ 32) ≤ 1 ∧ s.blockMeta.reservedBlocks (2 ^ 32) = s.blocks.length ∧
      2 ^ 32 ≤ s.size ∧ s.calls 1 0 (2 ^ 32) = some [⟨0, 0, 0⟩] ∧ ¬s.Serves Nat 0 (2 ^ 32) :=
  ⟨by decide, by decide, by decide, by decide,
    not_serves_of_large le_rfl (Nat.zero_le _) (by decide) (by decide)⟩

end TableSnapshot

/-! ## The tables of a vector -/

namespace State

variable {Tid : Type*} {m : Meta} {s : State Tid}

/-- A snapshot with one of the tables that have been published. -/
def Inv.snapshot (h : s.Inv m) {T : List Nat} (published : T ∈ s.tables) : TableSnapshot where
  blockMeta := .dynamic m
  blocks := T
  few := h.small T published
  distinct := (h.prefix_latest published).sublist.nodup h.nodup

/-- `operator[]` of the snapshot returns the elements of its table. -/
theorem Inv.snapshot_element (h : s.Inv m) {p : Nat} (lt : p < s.tables.length) (index : Nat) :
    (h.snapshot (table_mem lt)).element index = s.element m p index := rfl

end State

/-- In every state of a vector, each snapshot serves every range of the elements that it has. -/
theorem snapshot_serves {Tid : Type*} [DecidableEq Tid] {m : Meta} {s : State Tid} (α : Type*)
    (reach : (machine Tid m).Reach Machine.free s) {T : List Nat} (published : T ∈ s.tables)
    {first last : Nat} (le : first ≤ last) (within : last ≤ T.length * m.blockSize) :
    ((inv_of_reach reach).snapshot published).Serves α first last := by
  have size : ((inv_of_reach reach).snapshot published).size = T.length * m.blockSize :=
    TableSnapshot.size_eq _
  exact TableSnapshot.serves_of_small m.small le (size.symm ▸ within)

end Fuxi.Base.ConcurrentVector
