import Fuxi.Base.ConcurrentVector.Snapshot
import Fuxi.Base.IdAllocator.Exclusive
import Fuxi.Base.IdAllocator.Sequential
import Fuxi.Lib.Intervals

/-!
# Enumerating the values in use

`for_each` goes over `_free_next_value` block by block and looks for runs of `ACTIVE_FLAG`. A run
that has begun is kept in `start_value` from one block to the next, where `FREE_LIST_TAIL` says
that there is none.
-/

namespace Fuxi.Base.IdAllocator

open Lib ConcurrentVector

variable {T : IdType}

/-! ## The scan -/

/-- The locals of `for_each`, and the calls of its callback so far. -/
structure Scan where
  iterValue : Nat
  startValue : Nat
  calls : List (Nat × Nat)

namespace Scan

/-- What `for_each` does for one segment of entries: the list holds the entries from `iter` to
`end`. -/
def segment (T : IdType) (s : Scan) (entries : List Nat) : Scan :=
  if entries = [] then s
  else if s.startValue ≠ freeListTail T then
    let stop := entries.findIdx fun value => value ≠ activeFlag T
    let stopValue := stop + s.iterValue
    if stop ≠ entries.length then
      segment T ⟨(stopValue + 1) % T.size, freeListTail T,
        s.calls ++ [(s.startValue, stopValue % T.size)]⟩ (entries.drop (stop + 1))
    else segment T { s with iterValue := stopValue % T.size } (entries.drop stop)
  else
    let stop := entries.findIdx fun value => value = activeFlag T
    let stopValue := stop + s.iterValue
    if stop ≠ entries.length then
      segment T { s with
        iterValue := (stopValue + 1) % T.size
        startValue := stopValue % T.size } (entries.drop (stop + 1))
    else segment T { s with iterValue := stopValue % T.size } (entries.drop stop)
termination_by entries.length
decreasing_by all_goals
  have := List.length_pos_iff.mpr ‹entries ≠ []›
  rw [List.length_drop]
  omega

/-- What one entry does to the locals. -/
def entry (T : IdType) (s : Scan) (value : Nat) : Scan :=
  if s.startValue ≠ freeListTail T then
    if value = activeFlag T then { s with iterValue := s.iterValue + 1 }
    else ⟨s.iterValue + 1, freeListTail T, s.calls ++ [(s.startValue, s.iterValue)]⟩
  else if value = activeFlag T then
    { s with iterValue := s.iterValue + 1, startValue := s.iterValue }
  else { s with iterValue := s.iterValue + 1 }

variable {s : Scan}

/-- A segment is scanned entry by entry, as long as the values fit into their type. -/
theorem segment_cons {value : Nat} {l : List Nat} (fits : s.iterValue + (l.length + 1) < T.size) :
    s.segment T (value :: l) = (s.entry T value).segment T l := by
  have next : (s.iterValue + 1) % T.size = s.iterValue + 1 := Nat.mod_eq_of_lt (by omega)
  have here : s.iterValue % T.size = s.iterValue := Nat.mod_eq_of_lt (by omega)
  have swap (k : Nat) : k + 1 + s.iterValue = k + (s.iterValue + 1) := by omega
  rw [segment, if_neg (List.cons_ne_nil _ _)]
  by_cases run : s.startValue ≠ freeListTail T
  · by_cases ends : value = activeFlag T
    · rw [entry, if_pos run, if_pos run, if_pos ends]
      by_cases none : l = []
      · simp [none, ends, segment, Nat.add_comm 1, next]
      · conv_rhs => rw [segment, if_neg none, if_pos run]
        simp [List.findIdx_cons, ends, swap]
    · rw [entry, if_pos run, if_pos run, if_neg ends]
      simp [List.findIdx_cons, ends, here, next]
  · by_cases ends : value = activeFlag T
    · rw [entry, if_neg run, if_neg run, if_pos ends]
      simp [List.findIdx_cons, ends, here, next]
    · rw [entry, if_neg run, if_neg run, if_neg ends]
      by_cases none : l = []
      · simp [none, ends, segment, Nat.add_comm 1, next]
      · conv_rhs => rw [segment, if_neg none, if_neg run]
        simp [List.findIdx_cons, ends, swap]

theorem entry_iterValue (value : Nat) : (s.entry T value).iterValue = s.iterValue + 1 := by
  unfold entry
  split_ifs <;> rfl

theorem foldl_iterValue (l : List Nat) :
    (l.foldl (entry T) s).iterValue = s.iterValue + l.length := by
  induction l generalizing s with
  | nil => rfl
  | cons value l ih =>
    rw [List.foldl_cons, ih, entry_iterValue, List.length_cons]
    omega

theorem segment_eq {l : List Nat} (fits : s.iterValue + l.length < T.size) :
    s.segment T l = l.foldl (entry T) s := by
  induction l generalizing s with
  | nil => rw [segment, if_pos rfl, List.foldl_nil]
  | cons value l ih =>
    rw [List.length_cons] at fits
    rw [segment_cons fits, List.foldl_cons, ih (by rw [entry_iterValue]; omega)]

/-- So are the segments of a snapshot, one after the other. -/
theorem foldl_segment {m : Meta} {entries : Nat → Nat} {segments : List Segment}
    (fits : s.iterValue + (segments.flatMap (Segment.elements m)).length < T.size) :
    segments.foldl (fun (scan : Scan) r => scan.segment T ((r.elements m).map entries)) s =
      ((segments.flatMap (Segment.elements m)).map entries).foldl (entry T) s := by
  induction segments generalizing s with
  | nil => rfl
  | cons r segments ih =>
    rw [List.flatMap_cons, List.length_append] at fits
    rw [List.foldl_cons, segment_eq (by rw [List.length_map]; omega), ih, List.flatMap_cons,
      List.map_append, List.foldl_append]
    rw [foldl_iterValue, List.length_map]
    omega

/-! ## The runs that it finds -/

/-- The locals after the entries below `i`, where `p` tells which of them are in use: no run has
begun, or one that reaches up to here. -/
inductive Upto (T : IdType) (p : Nat → Prop) (i : Nat) : Scan → Prop
  | between {calls : List (Nat × Nat)} (gap : ∀ r ∈ calls, r.2 < i)
      (runs : Enumerates calls {v | v < i ∧ p v}) : Upto T p i ⟨i, freeListTail T, calls⟩
  | inside {start : Nat} {calls : List (Nat × Nat)}
      (runs : Enumerates (calls ++ [(start, i)]) {v | v < i ∧ p v}) : Upto T p i ⟨i, start, calls⟩

namespace Upto

variable {p : Nat → Prop} {i : Nat}

theorem start : Upto T p 0 ⟨0, freeListTail T, []⟩ :=
  .between (by simp) (.nil fun v h => absurd h.1 (Nat.not_lt_zero v))

theorem below_succ (here : p i) (v : Nat) :
    v ∈ {v | v < i + 1 ∧ p v} ↔ v ∈ {v | v < i ∧ p v} ∨ v ∈ Set.Ico i (i + 1) := by
  show v < i + 1 ∧ p v ↔ v < i ∧ p v ∨ i ≤ v ∧ v < i + 1
  obtain lt | rfl | lt := Nat.lt_trichotomy v i
  · simp [lt, Nat.lt_succ_of_lt lt, Nat.not_le.mpr lt]
  · simp [here]
  · simp [Nat.not_lt.mpr (Nat.succ_le_of_lt lt), Nat.lt_asymm lt]

theorem below_same (not_here : ¬p i) (v : Nat) :
    v ∈ {v | v < i + 1 ∧ p v} ↔ v ∈ {v | v < i ∧ p v} := by
  show v < i + 1 ∧ p v ↔ v < i ∧ p v
  refine ⟨fun ⟨lt, h⟩ => ⟨lt_of_le_of_ne (Nat.le_of_lt_succ lt) ?_, h⟩,
    fun ⟨lt, h⟩ => ⟨by omega, h⟩⟩
  rintro rfl
  exact not_here h

/-- One more entry. -/
theorem entry (h : Upto T p i s) (small : i < freeListTail T) {value : Nat}
    (active : value = activeFlag T ↔ p i) : Upto T p (i + 1) (s.entry T value) := by
  cases h with
  | between gap runs =>
    rw [Scan.entry, if_neg (not_not.mpr rfl)]
    split_ifs with here
    · exact .inside (runs.snoc gap (Nat.lt_succ_self i) (below_succ (active.mp here)))
    · exact .between (fun r mem => (gap r mem).trans (Nat.lt_succ_self i))
        (runs.congr (below_same (active.not.mp here)))
  | @inside start calls runs =>
    have lt := runs.last_lt
    rw [Scan.entry, if_pos (show start ≠ freeListTail T by omega)]
    split_ifs with here
    · exact .inside (runs.extend (Nat.le_succ i) (below_succ (active.mp here)))
    · refine .between (fun r mem => ?_) (runs.congr (below_same (active.not.mp here)))
      obtain old | last := List.mem_append.mp mem
      · have := runs.before old
        omega
      · rw [List.mem_singleton.mp last]
        exact Nat.lt_succ_self i

/-- All entries below `n`. -/
theorem foldl {n : Nat} (small : n ≤ freeListTail T) {entries : Nat → Nat}
    (active : ∀ i < n, entries i = activeFlag T ↔ p i) :
    Upto T p n (((List.range n).map entries).foldl (Scan.entry T) ⟨0, freeListTail T, []⟩) := by
  induction n with
  | zero => exact start
  | succ n ih =>
    rw [List.range_succ, List.map_append, List.foldl_append]
    have upto := ih (by omega) fun i lt => active i (by omega)
    exact upto.entry small (active n (Nat.lt_succ_self n))

end Upto

end Scan

/-! ## `for_each` -/

/-- `_free_next_value` is a `ConcurrentVector` with blocks of 128 entries. -/
def freeNextBlocks : Meta := ⟨7, Nat.le_add_right 7 24⟩

/-- The members of the class, with the number of blocks of `_free_next_value`. -/
structure Allocator extends Ids where
  blockNum : Nat

namespace Allocator

/-- `allocate`: a new value may need a new block. -/
def allocate (T : IdType) (s : Allocator) : VersionedValue × Allocator :=
  ((s.toIds.allocate T).1,
    { toIds := (s.toIds.allocate T).2
      blockNum := if s.freeHead.value ≠ freeListTail T then s.blockNum
        else max s.blockNum ((Call.ensure s.nextValue).expectBlockNum freeNextBlocks) })

def deallocate (T : IdType) (s : Allocator) (value : Nat) : Allocator :=
  { s with toIds := s.toIds.deallocate T value }

/-- `for_each`: the calls of the callback. -/
def forEach (T : IdType) (s : Allocator) : List (Nat × Nat) :=
  let segments := Snapshot.forEach freeNextBlocks 0
    (min (Snapshot.size freeNextBlocks s.blockNum) s.nextValue)
  let scan := segments.foldl (fun (scan : Scan) r =>
    scan.segment T ((r.elements freeNextBlocks).map s.freeNextValue)) ⟨0, freeListTail T, []⟩
  if scan.iterValue > scan.startValue then scan.calls ++ [(scan.startValue, scan.iterValue)]
  else scan.calls

/-- The values in use are marked and no others, and the entries of all values that were given out
lie in the blocks. -/
structure Marks (T : IdType) (s : Allocator) (used : Set Nat) : Prop where
  small : s.nextValue ≤ T.size - 2
  lt : ∀ v ∈ used, v < s.nextValue
  active_iff : ∀ v < s.nextValue, s.freeNextValue v = activeFlag T ↔ v ∈ used
  covered : s.nextValue ≤ s.blockNum * 128
  blocks : s.blockNum < 4294967296

/-- `for_each` calls its callback with the runs of values in use. -/
theorem Marks.forEach {s : Allocator} {used : Set Nat} (h : s.Marks T used) :
    Enumerates (s.forEach T) used := by
  have two := T.two_lt_size
  have most : T.size ≤ 4294967296 := by cases T <;> decide
  have small := h.small
  have size : Snapshot.size freeNextBlocks s.blockNum = s.blockNum * 128 := by
    have := h.blocks
    rw [Snapshot.size, Nat.shiftLeft_eq]
    exact u64_of_lt (by simp only [freeNextBlocks]; omega)
  have few : s.nextValue / freeNextBlocks.blockSize < 4294967296 :=
    (Nat.div_le_self _ _).trans_lt (by omega)
  have parts := Snapshot.forEach_partition (m := freeNextBlocks) (Nat.zero_le s.nextValue) few
  have all := parts.elements
  rw [Nat.sub_zero, ← List.range_eq_range'] at all
  have upto := Scan.Upto.foldl (T := T) (p := (· ∈ used)) (n := s.nextValue)
    (by unfold freeListTail; omega) h.active_iff
  rw [← all, ← Scan.foldl_segment (by rw [all, List.length_range]; simp only; omega)] at upto
  unfold Allocator.forEach
  simp only [size, Nat.min_eq_right h.covered]
  generalize List.foldl _ _ _ = scan at upto
  have below (v : Nat) : v ∈ used ↔ v ∈ {v | v < s.nextValue ∧ v ∈ used} :=
    (and_iff_right_of_imp (h.lt v)).symm
  cases upto with
  | between gap runs =>
    have none : ¬s.nextValue > freeListTail T := by
      unfold freeListTail
      omega
    rw [if_neg none]
    exact runs.congr below
  | inside runs =>
    rw [if_pos runs.last_lt]
    exact runs.congr below

/-- An entry of a free value is another value or the end of the list, but not the mark. -/
theorem not_active {next : Nat → Nat} {head n v : Nat} {free : List Nat}
    (linked : Links next (freeListTail T) head free) (mem : v ∈ free) (small : n ≤ T.size - 2)
    (lt : ∀ v ∈ free, v < n) : next v ≠ activeFlag T := by
  have two := T.two_lt_size
  unfold activeFlag freeListTail at *
  obtain next | last := linked.next_mem mem
  · have := lt _ next
    omega
  · omega

/-- The blocks reach as far as `ensure` was asked for. -/
theorem ensure_covered {v : Nat} (small : v < 4294967296) :
    (Call.ensure v).expectBlockNum freeNextBlocks = v / 128 + 1 := by
  have size : freeNextBlocks.blockSize = 128 := rfl
  exact expectBlockNum_ensure freeNextBlocks (by rw [size]; omega)

/-! ## Calls one after the other -/

/-- The allocator has given out `used`. -/
structure Served (T : IdType) (s : Allocator) (used : List Nat) : Prop where
  serves : s.toIds.Serves T used
  small : s.nextValue ≤ T.size - 2
  active : ∀ v ∈ used, s.freeNextValue v = activeFlag T
  covered : s.nextValue ≤ s.blockNum * 128
  blocks : s.blockNum < 4294967296

namespace Served

variable {s : Allocator} {used : List Nat}

theorem marks (h : s.Served T used) : s.Marks T {v | v ∈ used} := by
  refine ⟨h.small, fun v mem => h.serves.lt mem, fun v lt => ⟨fun flag => ?_, h.active v⟩,
    h.covered, h.blocks⟩
  obtain ⟨-, free, linked, all⟩ := h.serves
  obtain mem | mem := List.mem_append.mp (all.mem_iff.mpr (List.mem_range.mpr lt))
  · exact mem
  · have below : ∀ u ∈ free, u < s.nextValue := fun u mem =>
      List.mem_range.mp (all.subset (List.mem_append_right used mem))
    exact absurd flag (not_active linked mem h.small below)

theorem start (blank : Nat → Nat) : Served T ⟨Ids.unused T blank, 0⟩ [] where
  serves := .start blank
  small := Nat.zero_le _
  active := by simp
  covered := Nat.zero_le _
  blocks := Nat.zero_lt_of_lt (Nat.lt_succ_self 4294967295)

theorem perm (h : s.Served T used) {used' : List Nat} (same : used.Perm used') :
    s.Served T used' :=
  ⟨h.serves.perm same, h.small, fun v mem => h.active v (same.mem_iff.mpr mem), h.covered, h.blocks⟩

/-- The entry of the value that is returned is marked. -/
theorem allocate_entries (T : IdType) (s : Allocator) : (s.allocate T).2.freeNextValue =
    Function.update s.freeNextValue (s.allocate T).1.value (activeFlag T) := by
  unfold Allocator.allocate Ids.allocate
  split_ifs <;> rfl

theorem allocate (h : s.Served T used) (small : (s.allocate T).2.nextValue ≤ T.size - 2) :
    (s.allocate T).2.Served T ((s.allocate T).1.value :: used) ∧
      s.nextValue ≤ (s.allocate T).2.nextValue := by
  have two := T.two_lt_size
  have most : T.size ≤ 4294967296 := by cases T <;> decide
  have few := h.serves.length_le
  have old := h.small
  have served := h.serves.allocate (by omega)
  have blocks := h.blocks
  have covered := h.covered
  have ensured := ensure_covered (v := s.nextValue) (by omega)
  refine ⟨⟨served.2.1, small, fun v mem => ?_, ?_, ?_⟩, served.2.2⟩
  · rw [allocate_entries]
    by_cases new : v = (s.allocate T).1.value
    · rw [new, Function.update_self]
    · rw [Function.update_of_ne new]
      exact h.active v (List.mem_of_ne_of_mem new mem)
  · unfold Allocator.allocate Ids.allocate
    split_ifs with some
    · exact covered
    · have wrap : (s.nextValue + 1) % T.size = s.nextValue + 1 := Nat.mod_eq_of_lt (by omega)
      simp only [wrap, ensured]
      omega
  · unfold Allocator.allocate
    split_ifs with some
    · exact blocks
    · exact max_lt blocks (expectBlockNum_lt _ _)

theorem deallocate (h : s.Served T used) {value : Nat} (mem : value ∈ used) :
    (s.deallocate T value).Served T (used.erase value) := by
  refine ⟨h.serves.deallocate mem, h.small, fun v mem' => ?_, h.covered, h.blocks⟩
  have ne : v ≠ value := fun eq => h.serves.nodup.not_mem_erase (eq ▸ mem')
  exact (Function.update_of_ne ne _ _).trans (h.active v (List.mem_of_mem_erase mem'))

end Served

/-- The allocator and the values that are in use. -/
structure Run where
  allocator : Allocator
  used : List Nat

/-- A call of `allocate`, or of `deallocate` for a value that is in use. -/
inductive Request
  | allocate
  | deallocate (value : Nat)

def Run.step (T : IdType) (s : Run) : Request → Option Run
  | .allocate =>
    some ⟨(s.allocator.allocate T).2, (s.allocator.allocate T).1.value :: s.used⟩
  | .deallocate value =>
    if value ∈ s.used then some ⟨s.allocator.deallocate T value, s.used.erase value⟩ else none

/-- Calls one after the other. -/
def calls (T : IdType) (blank : Nat → Nat) : Machine Run Request where
  start s := s = ⟨⟨Ids.unused T blank, 0⟩, []⟩
  step := Run.step T

/-- After any number of calls the allocator has given out the values in use. -/
theorem served_of_reach {blank : Nat → Nat} {s : Run}
    (h : (calls T blank).Reach (fun _ _ s' => s'.allocator.nextValue ≤ T.size - 2) s) :
    s.allocator.Served T s.used := by
  refine h.inv (P := fun s => s.allocator.Served T s.used) ?_ ?_
  · rintro s rfl
    exact .start blank
  · rintro s (_ | value) s' inv hs small
    · cases hs
      exact (inv.allocate small).1
    · simp only [calls, Run.step] at hs
      split_ifs at hs with mem
      cases hs
      exact inv.deallocate mem

end Allocator

/-! ## Calls of several threads -/

/-- The allocator of the other modules, with the number of blocks of `_free_next_value`. -/
structure Shared (Tid : Type*) where
  state : State Tid
  blockNum : Nat

variable {Tid : Type*}

namespace Shared

def allocator (s : Shared Tid) : Allocator := ⟨s.state.ids, s.blockNum⟩

/-- The values of the ids that threads hold. -/
def used (s : Shared Tid) : Set Nat := {v | ∃ t, ∃ id ∈ s.state.held t, id.value = v}

/-- What `ensure` leaves behind. -/
def grow (s : Shared Tid) : Move → Pc → Nat
  | .step, .ensure id => max s.blockNum ((Call.ensure id.value).expectBlockNum freeNextBlocks)
  | _, _ => s.blockNum

def step [DecidableEq Tid] (T : IdType) (s : Shared Tid) (m : Tid × Move) : Option (Shared Tid) :=
  (s.state.step T m).map fun s' => ⟨s', s.grow m.2 (s.state.pc m.1)⟩

end Shared

/-- The interleavings of any number of threads that use one allocator. -/
def sharing (Tid : Type*) [DecidableEq Tid] (T : IdType) (blank : Nat → Nat) :
    Machine (Shared Tid) (Tid × Move) where
  start s := s = ⟨unused Tid T blank, 0⟩
  step := Shared.step T

/-- Held values are marked, and the blocks reach as far as values were given out, except for the
values whose `ensure` is still to come. -/
structure Stored (T : IdType) (s : State Tid) (blockNum : Nat) : Prop where
  active : ∀ t, ∀ id ∈ s.held t, s.freeNextValue id.value = activeFlag T
  covered : ∀ v < s.nextValue, (∀ t id, s.pc t = .ensure id → id.value ≠ v) → v < blockNum * 128
  blocks : blockNum < 4294967296

namespace Stored

variable {s s' : State Tid} {t : Tid} {blockNum : Nat}

/-- When all calls are complete, exactly the held values are marked. -/
theorem marks {s : Shared Tid} (h : Stored T s.state s.blockNum) (inv : Inv T s.state)
    (idle : ∀ t, s.state.pc t = .idle) : s.allocator.Marks T s.used := by
  have below : ∀ v ∈ s.state.free, v < s.state.nextValue := fun v free =>
    List.mem_range.mp ((inv.owned.cover v).mpr ⟨.free, free⟩)
  refine ⟨inv.small, ?_, fun v lt => ⟨fun flag => ?_, ?_⟩, Nat.le_of_not_lt fun past => ?_,
    h.blocks⟩
  · rintro v ⟨t, id, mem, rfl⟩
    exact List.mem_range.mp ((inv.owned.cover _).mpr ⟨.held t, List.mem_map_of_mem mem⟩)
  · obtain ⟨π, at_⟩ := (inv.owned.cover v).mp (List.mem_range.mpr lt)
    cases π with
    | held t =>
      obtain ⟨id, mem, eq⟩ := List.mem_map.mp at_
      exact ⟨t, id, mem, eq⟩
    | free => exact absurd flag (Allocator.not_active inv.linked at_ inv.small below)
    | inTransit t =>
      rw [State.At, idle t] at at_
      cases at_
  · rintro ⟨t, id, mem, rfl⟩
    exact h.active t id mem
  · refine absurd (h.covered _ past fun t id ensures => ?_) (Nat.lt_irrefl _)
    rw [idle t] at ensures
    cases ensures

variable [DecidableEq Tid]

/-- A step that gives out no value and no block, and stores only an entry of a value that its
thread carries. -/
theorem frame (h : Stored T s blockNum) (inv : Inv T s) {p : Pc}
    (pc : s'.pc = Function.update s.pc t p) (left : ∀ id, s.pc t ≠ .ensure id)
    (held : ∀ u, ∀ id ∈ s'.held u, id ∈ s.held u) (nextValue : s'.nextValue = s.nextValue)
    (entries : ∀ v, (s.pc t).carries ≠ some v → s'.freeNextValue v = s.freeNextValue v) :
    Stored T s' blockNum := by
  refine ⟨fun u id mem => ?_, fun v lt others => ?_, h.blocks⟩
  · have mem := held u id mem
    rw [entries _ fun carries => ?_]
    · exact h.active u id mem
    · have same := inv.owned.unique (π := .held u) (ρ := .inTransit t)
        (List.mem_map_of_mem mem) carries
      cases same
  · refine h.covered v (nextValue ▸ lt) fun u id ensures => others u id ?_
    rw [pc, Function.update_of_ne, ensures]
    rintro rfl
    exact left id ensures

/-- `allocate` marks a value and returns it. -/
theorem receive (h : Stored T s blockNum) {id : VersionedValue}
    (carries : (s.pc t).carries = some id.value) {blockNum' : Nat} (le : blockNum ≤ blockNum')
    (blocks : blockNum' < 4294967296)
    (ensured : ∀ id', s.pc t = .ensure id' → id.value < blockNum' * 128) :
    Stored T ((s.store id.value (activeFlag T)).receive t id) blockNum' := by
  refine ⟨fun u id' mem => ?_, fun v lt others => ?_, blocks⟩
  · by_cases same : id'.value = id.value
    · exact (congrArg _ same).trans (Function.update_self ..)
    · refine (Function.update_of_ne same _ _).trans (h.active u id' ?_)
      by_cases hu : u = t
      · subst hu
        simp only [State.receive, Function.update_self] at mem
        refine List.mem_of_ne_of_mem (fun eq => same (eq ▸ rfl)) mem
      · simp only [State.receive, Function.update_of_ne hu] at mem
        exact mem
  · by_cases carried : v = id.value ∧ ∃ id', s.pc t = .ensure id'
    · obtain ⟨rfl, id', ensures⟩ := carried
      exact ensured id' ensures
    · refine (h.covered v lt fun u id' ensures eq => ?_).trans_le (Nat.mul_le_mul_right _ le)
      by_cases hu : u = t
      · subst hu
        rw [ensures] at carries
        exact carried ⟨eq.symm.trans (Option.some.inj carries), id', ensures⟩
      · exact others u id' ((Function.update_of_ne hu _ _).trans ensures) eq

/-- `allocate` takes a new value, and its `ensure` is still to come. -/
theorem fetchAdd (h : Stored T s blockNum) (hp : s.pc t = .fetchAdd)
    (room : s.nextValue + 1 < T.size) :
    Stored T { s.goto t (.ensure ⟨s.nextValue, 0⟩) with
      nextValue := (s.nextValue + 1) % T.size } blockNum := by
  refine ⟨h.active, fun v lt others => ?_, h.blocks⟩
  have ne : s.nextValue ≠ v := others t ⟨s.nextValue, 0⟩ (Function.update_self ..)
  simp only [Nat.mod_eq_of_lt room] at lt
  refine h.covered v (by omega) fun u id ensures => others u id ?_
  refine (Function.update_of_ne ?_ _ _).trans ensures
  rintro rfl
  rw [hp] at ensures
  cases ensures

theorem advance (h : Stored T s blockNum) (inv : Inv T s) (hs : s.advance T t = some s') :
    Stored T s' ((Shared.mk s blockNum).grow .step (s.pc t)) := by
  have two := T.two_lt_size
  have most : T.size ≤ 4294967296 := by cases T <;> decide
  have small := inv.small
  unfold State.advance at hs
  cases hp : s.pc t with
  | idle => simp only [hp] at hs; cases hs
  | loadHead | loadNext head | loadTop id =>
    simp only [hp, Option.some.injEq] at hs
    subst hs
    exact h.frame inv rfl (by simp [hp]) (fun _ _ mem => mem) rfl fun _ _ => rfl
  | pop head next | push id head =>
    simp only [hp] at hs
    split_ifs at hs <;> cases hs <;>
      exact h.frame inv rfl (by simp [hp]) (fun _ _ mem => mem) rfl fun _ _ => rfl
  | storeActive id =>
    simp only [hp, Option.some.injEq] at hs
    subst hs
    exact h.receive (by rw [hp]; rfl) le_rfl h.blocks fun id' ensures => by
      rw [hp] at ensures
      cases ensures
  | ensure id =>
    simp only [hp, Option.some.injEq] at hs
    subst hs
    have lt : id.value < s.nextValue :=
      List.mem_range.mp ((inv.owned.cover _).mpr ⟨.inTransit t, by rw [State.At, hp]; rfl⟩)
    have ensured := Allocator.ensure_covered (v := id.value) (by omega)
    simp only [Shared.grow, ensured]
    refine h.receive (by rw [hp]; rfl) (le_max_left _ _) (max_lt h.blocks (by omega))
      fun id' _ => ?_
    omega
  | fetchAdd =>
    simp only [hp, Option.some.injEq] at hs
    subst hs
    exact h.fetchAdd hp (by omega)
  | storeNext id head =>
    simp only [hp, Option.some.injEq] at hs
    subst hs
    refine h.frame inv rfl (by simp [hp]) (fun _ _ mem => mem) rfl fun v hv => ?_
    refine Function.update_of_ne ?_ _ _
    rintro rfl
    exact hv (by rw [hp]; rfl)

theorem step (h : Stored T s blockNum) (inv : Inv T s) {m : Move}
    (hs : s.step T (t, m) = some s') :
    Stored T s' ((Shared.mk s blockNum).grow m (s.pc t)) := by
  cases m with
  | allocate =>
    simp only [State.step] at hs
    split at hs
    · rename_i hp
      cases hs
      exact h.frame inv rfl (by simp [hp]) (fun _ _ mem => mem) rfl fun _ _ => rfl
    · cases hs
  | deallocate id =>
    simp only [State.step] at hs
    split at hs
    · rename_i hp
      split_ifs at hs with mem
      cases hs
      refine h.frame inv rfl (by simp [hp]) (fun u id' mem' => ?_) rfl fun _ _ => rfl
      by_cases hu : u = t
      · subst hu
        simp only [Function.update_self] at mem'
        exact List.mem_of_mem_erase mem'
      · simpa only [Function.update_of_ne hu] using mem'
    · cases hs
  | step => exact h.advance inv hs
  | weakFail =>
    simp only [State.step] at hs
    split at hs
    all_goals cases hs
    all_goals
      rename_i hp
      exact h.frame inv rfl (by simp [hp]) (fun _ _ mem => mem) rfl fun _ _ => rfl

end Stored

variable [DecidableEq Tid]

/-- Both invariants in every interleaving. -/
theorem stored_of_reach {blank : Nat → Nat} {s : Shared Tid}
    (h : (sharing Tid T blank).Reach (fun s m s' => disciplined T s.state m s'.state) s) :
    Inv T s.state ∧ Stored T s.state s.blockNum := by
  refine h.inv (P := fun s => Inv T s.state ∧ Stored T s.state s.blockNum) ?_ ?_
  · rintro s rfl
    exact ⟨inv_unused blank, by simp [unused], fun v lt => absurd lt (Nat.not_lt_zero v),
      Nat.zero_lt_succ _⟩
  · rintro s ⟨t, m⟩ s' ⟨inv, stored⟩ hs side
    obtain ⟨state, move, rfl⟩ := Option.map_eq_some_iff.mp hs
    exact ⟨inv.step move side, stored.step inv move⟩

/-- In every state that is reached by complete calls, one after the other or of several threads,
the callback of `for_each` gets the values in use as ascending intervals that do not touch. -/
theorem forEach_enumerates (blank : Nat → Nat) :
    (∀ s, (Allocator.calls T blank).Reach (fun _ _ s' => s'.allocator.nextValue ≤ T.size - 2) s →
      Enumerates (s.allocator.forEach T) {v | v ∈ s.used}) ∧
    ∀ s, (sharing Tid T blank).Reach (fun s m s' => disciplined T s.state m s'.state) s →
      (∀ t, s.state.pc t = .idle) → Enumerates (s.allocator.forEach T) s.used := by
  constructor
  · exact fun s h => (Allocator.served_of_reach h).marks.forEach
  · intro s h idle
    obtain ⟨inv, stored⟩ := stored_of_reach h
    exact (stored.marks inv idle).forEach

/-- Six values are taken, and then the two values 4 and 2 are given back. -/
def fourRemain : List Allocator.Request :=
  List.replicate 6 .allocate ++ [.deallocate 4, .deallocate 2]

/-- Two threads take a value each at the same time, and one of them gives it back. -/
def twoThreads : List (Bool × Move) :=
  (true, .allocate) :: (false, .allocate) :: List.replicate 3 (true, .step) ++
    List.replicate 3 (false, .step) ++ (true, .deallocate ⟨0, 0⟩) :: List.replicate 3 (true, .step)

/-- The intervals of both runs. -/
theorem forEach_enumerates_fourRemain :
    (∃ s, (Allocator.calls .uint16 fun _ => 0).run ⟨⟨Ids.unused .uint16 fun _ => 0, 0⟩, []⟩
        fourRemain = some s ∧ s.allocator.forEach .uint16 = [(0, 2), (3, 4), (5, 6)] ∧
      Enumerates (s.allocator.forEach .uint16) {v | v ∈ s.used}) ∧
    ∃ s, (sharing Bool .uint16 fun _ => 0).run ⟨unused Bool .uint16 fun _ => 0, 0⟩ twoThreads =
      some s ∧ s.allocator.forEach .uint16 = [(1, 2)] ∧
      Enumerates (s.allocator.forEach .uint16) s.used := by
  constructor
  · have along : (Allocator.calls .uint16 fun _ => 0).Along
        (fun _ _ s' => s'.allocator.nextValue ≤ IdType.uint16.size - 2)
        ⟨⟨Ids.unused .uint16 fun _ => 0, 0⟩, []⟩ fourRemain := by decide +kernel
    have seen : ((Allocator.calls .uint16 fun _ => 0).run ⟨⟨Ids.unused .uint16 fun _ => 0, 0⟩, []⟩
        fourRemain).map (fun s => s.allocator.forEach .uint16) =
          some [(0, 2), (3, 4), (5, 6)] := by decide +kernel
    obtain ⟨s, run, reach, seen⟩ := Machine.Reach.of_along_seen (.start rfl) along seen
    exact ⟨s, run, seen, (@forEach_enumerates .uint16 Bool _ _).1 s reach⟩
  · have along : (sharing Bool .uint16 fun _ => 0).Along
        (fun s m s' => disciplined .uint16 s.state m s'.state)
        ⟨unused Bool .uint16 fun _ => 0, 0⟩ twoThreads := by decide +kernel
    have seen : ((sharing Bool .uint16 fun _ => 0).run ⟨unused Bool .uint16 fun _ => 0, 0⟩
        twoThreads).map (fun s => (s.state.pc true, s.state.pc false)) = some (.idle, .idle) := rfl
    have intervals : ((sharing Bool .uint16 fun _ => 0).run ⟨unused Bool .uint16 fun _ => 0, 0⟩
        twoThreads).map (fun s => s.allocator.forEach .uint16) = some [(1, 2)] := by
      decide +kernel
    obtain ⟨s, run, reach, seen⟩ := Machine.Reach.of_along_seen (.start rfl) along seen
    rw [run] at intervals
    simp only [Prod.mk.injEq] at seen
    refine ⟨s, run, Option.some.inj intervals, (forEach_enumerates _).2 s reach fun t => ?_⟩
    cases t with
    | true => exact seen.1
    | false => exact seen.2

end Fuxi.Base.IdAllocator
