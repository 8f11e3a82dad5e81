import Mathlib.Algebra.BigOperators.Pi
import Mathlib.Data.Int.ModEq
import Fuxi.Base.Counter
import Fuxi.Base.ThreadLocal.Isolated

/-!
# A counter has the sum of what was added to it

The sum over the row of a counter is its sum modulo `2 ^ 64`: a call changes one value of one
row, or clears or exchanges rows, and the sums change in the same way.
-/

namespace Fuxi.Base.ConcurrentAdder

open Lib
open CompactEnumerableThreadLocal (State.row)

variable {Tid Obj : Type*} {n : Nat} {s : State Tid Obj} {sums : Sums Obj} {o : Obj}

/-- The sum over a row. -/
def total (row : Nat → BitVec 64) : BitVec 64 := ∑ i ∈ Finset.range (2 ^ 15), row i

theorem total_zero : total 0 = 0 := Finset.sum_const_zero

theorem total_update {row : Nat → BitVec 64} {i : Nat} (few : i < 2 ^ 15) (value : BitVec 64) :
    total (Function.update row i (row i + value)) = total row + value := by
  have split : Function.update row i (row i + value) = row + Pi.single i value := by
    funext j
    by_cases e : j = i
    · subst e
      simp
    · simp [e]
  rw [split, total, total]
  simp only [Pi.add_apply, Finset.sum_add_distrib, Finset.sum_pi_single']
  rw [if_pos (Finset.mem_range.mpr few)]

/-- `value` visits all values that are not zero. -/
theorem value_eq (h : s.Inv n) : s.value o = total (s.row o) := by
  have visited := EnumerableThreadLocal.visited_eq (h.short (s.object o).storage)
    s.threadIds.threadEnd
  have few := h.few
  have sum : s.value o =
      ∑ i ∈ Finset.range ((s.storageOf o).visited s.threadIds.threadEnd), s.row o i := by
    simp only [State.value, CompactEnumerableThreadLocal.State.each, EnumerableThreadLocal.each,
      List.map_map]
    rfl
  rw [sum, total]
  refine Finset.sum_subset (Finset.range_subset_range.mpr ?_) fun i _ beyond => ?_
  · exact visited.trans_le ((min_le_left _ _).trans few.le)
  · exact congrFun (h.unvisited _ i (Nat.not_lt.mp fun lt => beyond (Finset.mem_range.mpr lt))) _

/-- Every counter that is alive has its sum. -/
structure Agrees (n : Nat) (s : State Tid Obj) (sums : Sums Obj) : Prop where
  inv : s.Inv n
  sum : ∀ o ∈ s.alive, total (s.row o) = BitVec.ofInt 64 (sums o)

section Calls

variable [DecidableEq Obj]

theorem Agrees.construct (h : Agrees n s sums) (new : o ∉ s.alive)
    (room : s.alive.length + 1 < 2 ^ 32) :
    Agrees n (s.construct n o) (sums.after (.construct o)) := by
  obtain ⟨inv, zero, others⟩ := h.inv.construct new room
  refine ⟨inv, List.forall_mem_cons.mpr ⟨?_, fun u mem => ?_⟩⟩
  · rw [zero, total_zero]
    simp [Sums.after]
  · have ne : u ≠ o := by
      rintro rfl
      exact new mem
    rw [others u mem, h.sum u mem]
    simp [Sums.after, ne]

theorem Agrees.moveAssign (h : Agrees n s sums) {other : Obj} (mem : o ∈ s.alive)
    (mem' : other ∈ s.alive) :
    Agrees n (s.moveAssign o other) (sums.after (.moveAssign o other)) := by
  obtain ⟨inv, rows⟩ := h.inv.moveAssign mem mem'
  refine ⟨inv, fun u alive => ?_⟩
  rw [rows u, h.sum _ ?_]
  · rfl
  · rw [Equiv.swap_apply_def]
    split_ifs
    · exact mem'
    · exact mem
    · exact alive

theorem Agrees.destroy (h : Agrees n s sums) (mem : o ∈ s.alive) :
    Agrees n (s.destroy o) (sums.after (.destroy o)) := by
  obtain ⟨inv, others⟩ := h.inv.destroy mem
  refine ⟨inv, fun u alive => ?_⟩
  obtain ⟨before, same⟩ := others u alive
  rw [same]
  exact h.sum u before

theorem Agrees.add [DecidableEq Tid] (h : Agrees n s sums) (mem : o ∈ s.alive) {t : Tid}
    {value : BitVec 64} (few : (s.add t o value).threadIds.threadEnd < 2 ^ 15) :
    Agrees n (s.add t o value) (sums.after (.add o value)) := by
  obtain ⟨inv, ⟨i, small, own⟩, others⟩ := h.inv.setLocal mem few
  refine ⟨inv, fun u alive => ?_⟩
  by_cases e : u = o
  · subst e
    refine (congrArg total own).trans ?_
    rw [total_update small, h.sum u mem]
    simp [Sums.after, BitVec.ofInt_add]
  · refine (congrArg total (others u alive e)).trans ?_
    rw [h.sum u alive]
    simp [Sums.after, e]

theorem Agrees.reset (h : Agrees n s sums) (mem : o ∈ s.alive) :
    Agrees n (s.reset o) (sums.after (.reset o)) := by
  obtain ⟨inv, -, others⟩ := h.inv.assignEach mem (f := fun _ => 0)
  refine ⟨inv, fun u alive => ?_⟩
  by_cases e : u = o
  · subst e
    refine (congrArg total (h.inv.row_clear mem)).trans ?_
    rw [total_zero]
    simp [Sums.after]
  · refine (congrArg total (others u alive e)).trans ?_
    rw [h.sum u alive]
    simp [Sums.after, e]

/-- One call keeps the sums right. -/
theorem Agrees.step [DecidableEq Tid] (h : Agrees n s sums) {move : Tid × Move Obj}
    {s' : State Tid Obj} (taken : s.step n move = some s') (bounded : Bounded s move s') :
    Agrees n s' (sums.after move.2) := by
  obtain ⟨few, room⟩ := bounded
  obtain ⟨t, move⟩ := move
  cases move with
  | construct o =>
    obtain ⟨new, eq⟩ := Option.ite_none_right_eq_some.mp taken
    obtain rfl := Option.some.inj eq
    exact h.construct new room
  | moveConstruct o other =>
    obtain ⟨⟨new, mem⟩, eq⟩ := Option.ite_none_right_eq_some.mp taken
    obtain rfl := Option.some.inj eq
    exact (h.construct new room).moveAssign List.mem_cons_self (List.mem_cons_of_mem o mem)
  | moveAssign o other =>
    obtain ⟨⟨mem, mem'⟩, eq⟩ := Option.ite_none_right_eq_some.mp taken
    obtain rfl := Option.some.inj eq
    exact h.moveAssign mem mem'
  | destroy o =>
    obtain ⟨mem, eq⟩ := Option.ite_none_right_eq_some.mp taken
    obtain rfl := Option.some.inj eq
    exact h.destroy mem
  | add o value =>
    obtain ⟨mem, eq⟩ := Option.ite_none_right_eq_some.mp taken
    obtain rfl := Option.some.inj eq
    exact h.add mem few
  | reset o =>
    obtain ⟨mem, eq⟩ := Option.ite_none_right_eq_some.mp taken
    obtain rfl := Option.some.inj eq
    exact h.reset mem
  | exit =>
    obtain rfl := Option.some.inj taken
    exact ⟨h.inv.exit t, h.sum⟩

end Calls

section Runs

variable [DecidableEq Tid] [DecidableEq Obj]

theorem Agrees.run {moves : List (Tid × Move Obj)} (h : Agrees n s sums)
    (along : (machine Tid Obj n).Along Bounded s moves) {s' : State Tid Obj}
    (ran : (machine Tid Obj n).run s moves = some s') :
    Agrees n s' (moves.foldl (fun sums move => sums.after move.2) sums) := by
  induction moves generalizing s sums with
  | nil =>
    cases ran
    exact h
  | cons move moves ih =>
    obtain ⟨u, taken, ran⟩ := Option.bind_eq_some_iff.mp ran
    rw [Machine.Along, taken] at along
    exact ih (h.step taken along.1) along.2 ran

/-- Whatever has happened before, the value of every counter is its sum modulo `2 ^ 64`. -/
theorem value_modEq {s₀ s : State Tid Obj} {moves : List (Tid × Move Obj)}
    (start : (machine Tid Obj n).start s₀) (along : (machine Tid Obj n).Along Bounded s₀ moves)
    (ran : (machine Tid Obj n).run s₀ moves = some s) {o : Obj} (alive : o ∈ s.alive) :
    (State.value s o).toInt ≡ Sums.run moves o [ZMOD 2 ^ 64] := by
  obtain ⟨blank, blank', threadId, object, rfl⟩ := start
  have fresh : Agrees n (.unused blank blank' threadId object : State Tid Obj) fun _ => 0 :=
    ⟨CompactEnumerableThreadLocal.State.inv_unused _ _ _ _, fun _ => nofun⟩
  have agrees := fresh.run along ran
  rw [value_eq agrees.inv, agrees.sum o alive, BitVec.toInt_ofInt]
  exact Int.bmod_emod ..

end Runs

/-- Counter `1` takes over a sum of `12` and is destroyed; counter `2` gets its number and starts
with `0`. -/
theorem value_modEq_reuse : let moves : List (Bool × Move Nat) := [(false, .construct 0),
      (true, .construct 1), (false, .add 0 5), (true, .add 0 7), (true, .add 1 1), (true, .exit),
      (false, .moveAssign 0 1), (false, .destroy 1), (false, .construct 2), (false, .add 2 9)]
    ∃ s, (machine Bool Nat 512).run (.empty _ _) moves = some s ∧ State.value s 0 = 1 ∧
      State.value s 2 = 9 ∧ (State.value s 2).toInt ≡ Sums.run moves 2 [ZMOD 2 ^ 64] := by
  intro moves
  have along : (machine Bool Nat 512).Along Bounded (.empty _ _) moves := by decide +kernel
  obtain ⟨s, ran, zero, two, alive⟩ : ∃ s, (machine Bool Nat 512).run (.empty _ _) moves = some s ∧
      State.value s 0 = 1 ∧ State.value s 2 = 9 ∧ 2 ∈ s.alive :=
    ⟨_, rfl, by decide +kernel, by decide +kernel, by decide +kernel⟩
  exact ⟨s, ran, zero, two, value_modEq ⟨_, _, _, _, rfl⟩ along ran alive⟩

/-! ## As many counters as there are numbers -/

/-- Construct so many counters, one after the other. -/
def constructs (k : Nat) : List (Unit × Move Nat) :=
  (List.range k).map fun o => ((), .construct o)

/-- That many counters have been constructed, and nothing else has been done. -/
structure Filled (k : Nat) (s : State Unit Nat) : Prop where
  nextValue : s.idAllocator.nextValue = k % 2 ^ 32
  full : s.idAllocator.freeHead.value = 2 ^ 32 - 1
  storages : s.storageVector = fun _ => ⟨0, fun _ _ => 0⟩
  threadIds : s.threadIds = ⟨.unused .uint16 fun _ => 0, [], fun _ => 0⟩
  alive : s.alive = (List.range k).reverse
  object : ∀ o < k, s.object o = .ofId 512 o

theorem Filled.construct {k : Nat} {s : State Unit Nat} (h : Filled k s) (le : k < 2 ^ 32) :
    Filled (k + 1) (s.construct 512 k) := by
  have allocate : s.idAllocator.allocate .uint32 = (⟨s.idAllocator.nextValue, 0⟩, _) :=
    if_neg (not_not.mpr h.full)
  have next : s.idAllocator.nextValue = k := h.nextValue.trans (Nat.mod_eq_of_lt le)
  refine ⟨?_, ?_, h.storages, h.threadIds, ?_, fun o lt => ?_⟩
  · simp only [CompactEnumerableThreadLocal.State.construct, allocate, next]
    rfl
  · simp only [CompactEnumerableThreadLocal.State.construct, allocate]
    exact h.full
  · simp [CompactEnumerableThreadLocal.State.construct, h.alive, List.range_succ]
  · simp only [CompactEnumerableThreadLocal.State.construct, allocate, next, Function.update_apply]
    split_ifs with e
    · rw [e]
    · exact h.object o (by omega)

/-- The condition on the thread ids alone. -/
def FewThreads (_ : State Unit Nat) (_ : Unit × Move Nat) (s : State Unit Nat) : Prop :=
  s.threadIds.threadEnd < 2 ^ 15

theorem exists_filled (k : Nat) (le : k ≤ 2 ^ 32) : ∃ s : State Unit Nat, Filled k s ∧
    ∀ rest, (machine Unit Nat 512).run (.empty _ _) (constructs k ++ rest) =
        (machine Unit Nat 512).run s rest ∧
      ((machine Unit Nat 512).Along FewThreads s rest →
        (machine Unit Nat 512).Along FewThreads (.empty _ _) (constructs k ++ rest)) := by
  induction k with
  | zero => exact ⟨.empty _ _, ⟨rfl, rfl, rfl, rfl, rfl, nofun⟩, fun _ => ⟨rfl, id⟩⟩
  | succ k ih =>
    obtain ⟨s, filled, before⟩ := ih (by omega)
    have next := filled.construct (by omega)
    have new : k ∉ s.alive := by simp [filled.alive]
    have taken : (machine Unit Nat 512).step s ((), .construct k) = some (s.construct 512 k) :=
      if_pos new
    refine ⟨_, next, fun rest => ?_⟩
    obtain ⟨ran, along⟩ := before (((), .construct k) :: rest)
    rw [constructs, List.range_succ, List.map_append, List.append_assoc]
    refine ⟨ran.trans ?_, fun after => along ?_⟩
    · rw [Machine.run_cons, taken, Option.bind_some]
    · rw [Machine.Along, taken]
      refine ⟨?_, after⟩
      rw [FewThreads, ThreadIds.threadEnd, next.threadIds]
      decide

/-- Two counters share their place, and nothing has been added to any counter. -/
structure Shared (o other : Nat) (s : State Unit Nat) : Prop where
  storages : s.storageVector = fun _ => ⟨0, fun _ _ => 0⟩
  threadIds : s.threadIds = ⟨.unused .uint16 fun _ => 0, [], fun _ => 0⟩
  alive : o ∈ s.alive ∧ other ∈ s.alive
  object : s.object o = .ofId 512 0 ∧ s.object other = .ofId 512 0

theorem Shared.add {o other : Nat} {s : State Unit Nat} (h : Shared o other s) :
    State.value (s.add () o 5) other = 5 ∧ (s.add () o 5).threadIds.threadEnd = 1 := by
  have current : (s.threadIds.currentThreadId ()).1 = 0 := by
    rw [h.threadIds]
    rfl
  have threadEnd : (s.add () o 5).threadIds.threadEnd = 1 := by
    rw [State.add, CompactEnumerableThreadLocal.State.setLocal, h.threadIds]
    rfl
  have assign : s.assign o (· + 5) = fun line => Function.update line 0 (line 0 + 5) := by
    funext line
    rw [CompactEnumerableThreadLocal.State.assign, h.object.1]
    rfl
  have storage : (s.add () o 5).storageVector 0 =
      (⟨0, fun _ _ => 0⟩ : EnumerableThreadLocal (CacheLine (BitVec 64))).setLocal 0
        fun line => Function.update line 0 (line 0 + 5) := by
    simp only [State.add, CompactEnumerableThreadLocal.State.setLocal, current,
      CompactEnumerableThreadLocal.State.setStorage, CompactEnumerableThreadLocal.State.storageOf,
      assign, h.object.1, h.storages]
    rfl
  refine ⟨?_, threadEnd⟩
  have place : (s.add () o 5).object other = .ofId 512 0 := h.object.2
  rw [State.value, CompactEnumerableThreadLocal.State.each,
    CompactEnumerableThreadLocal.State.storageOf, place, threadEnd]
  change (((s.add () o 5).storageVector 0).each 1 |>.map (· 0)).sum = 5
  rw [storage]
  decide +kernel

/-- The last counter is destroyed: the free list looks empty. -/
theorem Filled.destroy {s : State Unit Nat} (h : Filled (2 ^ 32) s) :
    let s' := s.destroy (2 ^ 32 - 1)
    s'.idAllocator.nextValue = 0 ∧ s'.idAllocator.freeHead.value = 2 ^ 32 - 1 ∧
      s'.storageVector = (fun _ => ⟨0, fun _ _ => 0⟩) ∧ 0 ∈ s'.alive ∧ 2 ^ 32 ∉ s'.alive := by
  have last : s.object (2 ^ 32 - 1) = .ofId 512 (2 ^ 32 - 1) := h.object _ (by decide)
  have alive : ∀ o, o ∈ s.alive ↔ o < 2 ^ 32 := by simp [h.alive]
  refine ⟨h.nextValue, congrArg CompactEnumerableThreadLocal.instanceId last, ?_, ?_, fun mem => ?_⟩
  · funext k
    have visited : (s.storageOf (2 ^ 32 - 1)).visited s.threadIds.threadEnd = 0 := by
      rw [h.threadIds]
      exact Nat.zero_min _
    simp only [CompactEnumerableThreadLocal.State.destroy,
      CompactEnumerableThreadLocal.State.assignEach, CompactEnumerableThreadLocal.State.setStorage,
      EnumerableThreadLocal.assignEach, visited, Function.update_apply]
    simp [CompactEnumerableThreadLocal.State.storageOf, h.storages]
  · exact (List.mem_erase_of_ne (by decide)).mpr ((alive 0).mpr (by decide))
  · have := (alive _).mp (List.mem_of_mem_erase mem)
    omega

/-- Then one more counter is constructed, with the number of the first one. -/
theorem Filled.shared {s : State Unit Nat} (h : Filled (2 ^ 32) s) :
    Shared 0 (2 ^ 32) ((s.destroy (2 ^ 32 - 1)).construct 512 (2 ^ 32)) := by
  obtain ⟨next, full, storages, alive, -⟩ := h.destroy
  have first : (s.destroy (2 ^ 32 - 1)).object 0 = .ofId 512 0 := h.object 0 (by decide)
  have threadIds : (s.destroy (2 ^ 32 - 1)).threadIds = _ := h.threadIds
  generalize s.destroy (2 ^ 32 - 1) = s' at *
  have allocate : s'.idAllocator.allocate .uint32 = (⟨s'.idAllocator.nextValue, 0⟩, _) :=
    if_neg (not_not.mpr full)
  have object : (s'.construct 512 (2 ^ 32)).object =
      Function.update s'.object (2 ^ 32) (.ofId 512 0) := by
    rw [CompactEnumerableThreadLocal.State.construct, allocate, next]
  refine ⟨storages, threadIds, ⟨List.mem_cons_of_mem _ alive, List.mem_cons_self⟩, ?_, ?_⟩
  · rw [object, Function.update_of_ne (by decide), first]
  · rw [object, Function.update_self]

/-- With `2 ^ 32` counters alive, the number of the last one is the mark for the end of the free
list. Its destruction empties the list, `next_value` has come round to `0`, and the next counter
shares all its values with the first one. -/
theorem value_of_shared_id :
    let moves : List (Unit × Move Nat) := constructs (2 ^ 32) ++
      [((), .destroy (2 ^ 32 - 1)), ((), .construct (2 ^ 32)), ((), .add 0 5)]
    (machine Unit Nat 512).Along FewThreads (.empty _ _) moves ∧
      ∃ s, (machine Unit Nat 512).run (.empty _ _) moves = some s ∧ 2 ^ 32 ∈ s.alive ∧
        (State.value s (2 ^ 32)).toInt = 5 ∧ Sums.run moves (2 ^ 32) = 0 := by
  obtain ⟨s, filled, before⟩ := exists_filled (2 ^ 32) le_rfl
  have next := before [((), .destroy (2 ^ 32 - 1)), ((), .construct (2 ^ 32)), ((), .add 0 5)]
  generalize constructs (2 ^ 32) = many at next
  obtain ⟨ran, along⟩ := next
  obtain ⟨-, -, -, -, new⟩ := filled.destroy
  have shared := filled.shared
  obtain ⟨five, one⟩ := shared.add
  have mem : 2 ^ 32 - 1 ∈ s.alive := by
    rw [filled.alive, List.mem_reverse, List.mem_range]
    decide
  have destroyed : (machine Unit Nat 512).step s ((), .destroy (2 ^ 32 - 1)) =
      some (s.destroy (2 ^ 32 - 1)) := if_pos mem
  have constructed : (machine Unit Nat 512).step (s.destroy (2 ^ 32 - 1))
      ((), .construct (2 ^ 32)) =
        some ((s.destroy (2 ^ 32 - 1)).construct 512 (2 ^ 32)) := if_pos new
  have added : (machine Unit Nat 512).step ((s.destroy (2 ^ 32 - 1)).construct 512 (2 ^ 32))
      ((), .add 0 5) =
        some (State.add ((s.destroy (2 ^ 32 - 1)).construct 512 (2 ^ 32)) () 0 5) :=
    if_pos shared.alive.1
  have none : s.threadIds.threadEnd = 0 := by
    rw [filled.threadIds]
    rfl
  have rest : (machine Unit Nat 512).run s
      [((), .destroy (2 ^ 32 - 1)), ((), .construct (2 ^ 32)), ((), .add 0 5)] =
        some (State.add ((s.destroy (2 ^ 32 - 1)).construct 512 (2 ^ 32)) () 0 5) := by
    simp only [Machine.run_cons, destroyed, constructed, added, Option.bind_some, Machine.run_nil]
  refine ⟨along ?_, _, ran.trans rest, shared.alive.2, ?_, ?_⟩
  · simp only [Machine.Along, destroyed, constructed, added, FewThreads, one, and_true]
    refine ⟨?_, ?_, by decide⟩
    · exact none ▸ by decide
    · exact none ▸ by decide
  · rw [five]
    decide
  · simp only [Sums.run, List.foldl_append, List.foldl_cons, List.foldl_nil]
    generalize List.foldl _ _ many = sums
    simp [Sums.after]

end Fuxi.Base.ConcurrentAdder
