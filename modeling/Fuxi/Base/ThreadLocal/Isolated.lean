import Mathlib.Algebra.Notation.Pi.Basic
import Mathlib.Data.List.Nodup
import Mathlib.Logic.Equiv.Basic
import Fuxi.Base.ConcurrentVector.Growth
import Fuxi.Base.ThreadLocal

/-!
# Instances that share cache lines are isolated

The values of an instance, one for each thread id, are a row of their own: a call changes the
rows of the instances that it is given and no other. Everything outside the rows of the
instances that are alive is zero, so that a new instance starts with zeros, whoever had its
number before.
-/

namespace Fuxi.Base

open Lib

variable {Tid Obj V : Type*}

namespace ThreadIds

variable [DecidableEq Tid] {s : ThreadIds Tid} {t : Tid}

/-- The threads that have an id have different ones, all below the end. -/
def Distinct (s : ThreadIds Tid) : Prop := s.ids.Serves .uint16 (s.threads.map s.threadId)

theorem Distinct.current (h : s.Distinct) (few : s.threadEnd < 2 ^ 15) :
    (s.currentThreadId t).2.Distinct ∧
      (s.currentThreadId t).1 < (s.currentThreadId t).2.threadEnd ∧
        s.threadEnd ≤ (s.currentThreadId t).2.threadEnd := by
  unfold currentThreadId
  split_ifs with known
  · exact ⟨h, h.lt (List.mem_map_of_mem known), le_rfl⟩
  · have room : s.threads.length + 1 < IdAllocator.IdType.uint16.size := by
      have := h.length_le
      rw [List.length_map] at this
      simp only [threadEnd] at few
      simp only [IdAllocator.IdType.size]
      omega
    obtain ⟨-, serves, le⟩ := h.enter known room
    refine ⟨serves, serves.lt ?_, le⟩
    rw [List.map_cons, Function.update_self]
    exact List.mem_cons_self

theorem Distinct.exit (h : s.Distinct) :
    (s.exit t).Distinct ∧ (s.exit t).threadEnd = s.threadEnd := by
  unfold ThreadIds.exit
  split_ifs with known
  · exact ⟨h.leave known, rfl⟩
  · exact ⟨h, rfl⟩

end ThreadIds

namespace EnumerableThreadLocal

variable {s : EnumerableThreadLocal V}

/-- As long as its size fits into a `uint16_t`, a storage is visited up to its size. -/
theorem visited_eq (short : s.blockNum ≤ 256) (threadEnd : Nat) :
    s.visited threadEnd = min threadEnd (s.blockNum * 128) := by
  rw [visited, s.size_eq, u16, Nat.mod_eq_of_lt (by omega)]

/-- An element that has been used is visited from then on. -/
theorem ensure_spec {index : Nat} (few : index < 2 ^ 15) (short : s.blockNum ≤ 256) :
    s.blockNum ≤ (s.ensure index).blockNum ∧ (s.ensure index).blockNum ≤ 256 ∧
      index < (s.ensure index).blockNum * 128 := by
  simp only [ensure, expectBlockNum_ensure (show index < 2 ^ 16 by omega)]
  omega

/-- `ensure` leaves as many blocks as a call of `ConcurrentVector::ensure` that runs alone. -/
theorem ensure_alone [DecidableEq Tid] {v : ConcurrentVector.State Tid} (h : v.Inv blocks) {t : Tid}
    (idle : v.pc t = .idle) (same : (v.table v.blockTable).length = s.blockNum) (index : Nat) :
    ∃ moves v', (ConcurrentVector.machine Tid blocks).run v ((t, .call (.ensure index)) :: moves) =
        some v' ∧ (v'.table v'.blockTable).length = (s.ensure index).blockNum := by
  obtain ⟨moves, v', ran, -, -, length⟩ := h.alone idle (.ensure index)
  exact ⟨moves, v', ran, by rw [length, same]; rfl⟩

/-- What has been assigned is visited, and all that was visited before still is. -/
theorem beyond_setLocal {f : V → V} {index threadEnd threadEnd' i : Nat} (few : index < 2 ^ 15)
    (short : s.blockNum ≤ 256) (below : index < threadEnd') (le : threadEnd ≤ threadEnd')
    (beyond : (s.setLocal index f).visited threadEnd' ≤ i) :
    i ≠ index ∧ s.visited threadEnd ≤ i := by
  obtain ⟨grown, short', inside⟩ := ensure_spec few short
  have visited : (s.setLocal index f).visited threadEnd' =
      min threadEnd' ((s.ensure index).blockNum * 128) := visited_eq short' _
  rw [visited] at beyond
  rw [visited_eq short]
  omega

end EnumerableThreadLocal

namespace CompactEnumerableThreadLocal.State

variable {n : Nat} {s : State Tid Obj V} {o u : Obj}

/-- The values of an instance, by thread id. -/
def row (s : State Tid Obj V) (o : Obj) (i : Nat) : V :=
  (s.storageOf o).element i (s.object o).cachelineOffset

/-- The values at the place of a number. -/
def cells (n : Nat) (s : State Tid Obj V) (id i : Nat) : V :=
  (s.storageVector (id / n)).element i (id % n)

def idOf (s : State Tid Obj V) (o : Obj) : Nat := (s.object o).instanceId

/-- The invariant; `n` is `NUM_PER_CACHELINE`. -/
structure Inv [Zero V] (n : Nat) (s : State Tid Obj V) : Prop where
  numbered : s.idAllocator.Serves .uint32 (s.alive.map s.idOf)
  placed : ∀ o ∈ s.alive, s.object o = ofId n (s.idOf o)
  threads : s.threadIds.Distinct
  few : s.threadIds.threadEnd < 2 ^ 15
  short : ∀ k, (s.storageVector k).blockNum ≤ 256
  unvisited : ∀ k i, (s.storageVector k).visited s.threadIds.threadEnd ≤ i →
    (s.storageVector k).element i = 0
  blank : ∀ id, id ∉ s.alive.map s.idOf → s.cells n id = 0

theorem inv_unused [Zero V] (blank blank' : Nat → Nat) (threadId : Tid → Nat)
    (object : Obj → CompactEnumerableThreadLocal) :
    (unused blank blank' threadId object : State Tid Obj V).Inv n where
  numbered := .start blank
  placed := nofun
  threads := .start blank'
  few := show 0 < 2 ^ 15 by decide
  short _ := Nat.zero_le _
  unvisited _ _ _ := rfl
  blank _ _ := rfl

variable [Zero V]

theorem Inv.row_eq (h : s.Inv n) (mem : o ∈ s.alive) : s.row o = s.cells n (s.idOf o) := by
  funext i
  rw [row, storageOf, h.placed o mem]
  rfl

theorem Inv.idOf_inj (h : s.Inv n) (mem : o ∈ s.alive) (mem' : u ∈ s.alive)
    (eq : s.idOf o = s.idOf u) : o = u :=
  List.inj_on_of_nodup_map h.numbered.nodup mem mem' eq

/-- Different numbers have different places. -/
theorem place_ne {id id' : Nat} (ne : id ≠ id') : id / n = id' / n → id % n ≠ id' % n := by
  intro div mod
  have := Nat.div_add_mod id n
  rw [div, mod, Nat.div_add_mod] at this
  exact ne this.symm

/-! ## Changes of one storage -/

section Storage

variable {storage : EnumerableThreadLocal (CacheLine V)}

/-- Assigning at the place of one number leaves the places of the others alone. -/
theorem Inv.cells_setStorage (h : s.Inv n) (mem : o ∈ s.alive)
    (own : ∀ i c, c ≠ (s.object o).cachelineOffset →
      storage.element i c = (s.storageOf o).element i c) {id : Nat} (ne : id ≠ s.idOf o) :
    (s.setStorage o storage).cells n id = s.cells n id := by
  have place := h.placed o mem
  funext i
  simp only [cells, setStorage]
  by_cases same : id / n = (s.object o).storage
  · have other : id % n ≠ (s.object o).cachelineOffset := by
      rw [place] at same ⊢
      exact place_ne ne same
    rw [same, Function.update_self, own i _ other]
    rfl
  · rw [Function.update_of_ne same]

omit [Zero V] in
theorem row_setStorage : (s.setStorage o storage).row o =
    fun i => storage.element i (s.object o).cachelineOffset := by
  funext i
  simp [row, storageOf, setStorage]

theorem Inv.row_setStorage_of_ne (h : s.Inv n) (mem : o ∈ s.alive)
    (own : ∀ i c, c ≠ (s.object o).cachelineOffset →
      storage.element i c = (s.storageOf o).element i c) (mem' : u ∈ s.alive) (ne : u ≠ o) :
    (s.setStorage o storage).row u = s.row u := by
  have other : s.idOf u ≠ s.idOf o := fun eq => ne (h.idOf_inj mem' mem eq)
  have cells := h.cells_setStorage mem own other
  have place := h.placed u mem'
  rw [h.row_eq mem', ← cells]
  funext i
  simp only [row, storageOf, State.cells]
  rw [show (s.setStorage o storage).object u = ofId n (s.idOf u) from place]
  rfl

/-- What is assigned at the place of one number keeps the invariant. -/
theorem Inv.setStorage (h : s.Inv n) (mem : o ∈ s.alive)
    (own : ∀ i c, c ≠ (s.object o).cachelineOffset →
      storage.element i c = (s.storageOf o).element i c) (short : storage.blockNum ≤ 256)
    (unvisited : ∀ i, storage.visited s.threadIds.threadEnd ≤ i → storage.element i = 0) :
    (s.setStorage o storage).Inv n := by
  refine ⟨h.numbered, h.placed, h.threads, h.few, fun k => ?_, fun k => ?_, fun id new => ?_⟩
  · by_cases e : k = (s.object o).storage
    · subst e
      simpa [State.setStorage] using short
    · simpa [State.setStorage, e] using h.short k
  · by_cases e : k = (s.object o).storage
    · subst e
      simpa [State.setStorage] using unvisited
    · simpa [State.setStorage, e] using h.unvisited k
  · have ne : id ≠ s.idOf o := fun eq => new (eq ▸ List.mem_map_of_mem (f := s.idOf) mem)
    rw [h.cells_setStorage mem own ne]
    exact h.blank id new

end Storage

/-- More threads, and other threads. -/
theorem Inv.withThreads (h : s.Inv n) {threadIds : ThreadIds Tid} (threads : threadIds.Distinct)
    (few : threadIds.threadEnd < 2 ^ 15) (le : s.threadIds.threadEnd ≤ threadIds.threadEnd) :
    { s with threadIds }.Inv n := by
  refine ⟨h.numbered, h.placed, threads, few, h.short, fun k i beyond => ?_, h.blank⟩
  refine h.unvisited k i (le_trans ?_ beyond)
  rw [EnumerableThreadLocal.visited_eq (h.short k), EnumerableThreadLocal.visited_eq (h.short k)]
  exact min_le_min_right _ le

/-! ## The calls -/

omit [Zero V] in
theorem assign_of_ne {f : V → V} {line : CacheLine V} {c : Nat}
    (ne : c ≠ (s.object o).cachelineOffset) : s.assign o f line c = line c :=
  Function.update_of_ne ne _ _

omit [Zero V] in
theorem assign_self {f : V → V} {line : CacheLine V} :
    s.assign o f line (s.object o).cachelineOffset = f (line (s.object o).cachelineOffset) :=
  Function.update_self ..

/-- Assigning to `local()` changes one value of one row. -/
theorem Inv.setLocal [DecidableEq Tid] (h : s.Inv n) (mem : o ∈ s.alive) {t : Tid} {f : V → V}
    (few : (s.setLocal t o f).threadIds.threadEnd < 2 ^ 15) :
    (s.setLocal t o f).Inv n ∧
      (∃ i < 2 ^ 15, (s.setLocal t o f).row o = Function.update (s.row o) i (f (s.row o i))) ∧
        ∀ u ∈ s.alive, u ≠ o → (s.setLocal t o f).row u = s.row u := by
  obtain ⟨threads, below, le⟩ := h.threads.current h.few (t := t)
  unfold State.setLocal at few ⊢
  generalize s.threadIds.currentThreadId t = current at *
  obtain ⟨index, threadIds⟩ := current
  have before : { s with threadIds }.Inv n := h.withThreads threads few le
  have small : index < 2 ^ 15 := below.trans few
  have short := (EnumerableThreadLocal.ensure_spec small (h.short (s.object o).storage)).2.1
  have own : ∀ i c, c ≠ (s.object o).cachelineOffset →
      ((s.storageOf o).setLocal index (s.assign o f)).element i c =
        (s.storageOf o).element i c := by
    intro i c ne
    simp only [EnumerableThreadLocal.setLocal, Function.update_apply]
    split_ifs with e
    · rw [assign_of_ne ne, e]
    · rfl
  refine ⟨before.setStorage mem own short fun i beyond => ?_, ⟨index, small, ?_⟩, fun u mem' ne =>
    before.row_setStorage_of_ne mem own mem' ne⟩
  · obtain ⟨ne, old⟩ := EnumerableThreadLocal.beyond_setLocal small (h.short _) below le beyond
    simp only [EnumerableThreadLocal.setLocal, Function.update_of_ne ne]
    exact h.unvisited _ i old
  · refine (row_setStorage (s := { s with threadIds })).trans ?_
    funext i
    simp only [EnumerableThreadLocal.setLocal, Function.update_apply]
    split_ifs with e
    · exact assign_self
    · rfl

/-- `for_each` changes the values of one row that it visits. -/
theorem Inv.assignEach (h : s.Inv n) (mem : o ∈ s.alive) {f : V → V} :
    (s.assignEach o f).Inv n ∧
      ((s.assignEach o f).row o = fun i =>
        if i < (s.storageOf o).visited s.threadIds.threadEnd then f (s.row o i) else s.row o i) ∧
      ∀ u ∈ s.alive, u ≠ o → (s.assignEach o f).row u = s.row u := by
  have own : ∀ i c, c ≠ (s.object o).cachelineOffset →
      ((s.storageOf o).assignEach s.threadIds.threadEnd (s.assign o f)).element i c =
        (s.storageOf o).element i c := by
    intro i c ne
    simp only [EnumerableThreadLocal.assignEach]
    split_ifs
    · exact assign_of_ne ne
    · rfl
  refine ⟨h.setStorage mem own (h.short _) fun i beyond => ?_, ?_, fun u mem' ne =>
    h.row_setStorage_of_ne mem own mem' ne⟩
  · refine (if_neg ?_).trans (h.unvisited _ i beyond)
    exact Nat.not_lt.mpr beyond
  · refine row_setStorage.trans (funext fun i => ?_)
    simp only [EnumerableThreadLocal.assignEach]
    split_ifs
    · exact assign_self
    · rfl

/-- `for_each` reaches all values of a row that are not zero. -/
theorem Inv.row_clear (h : s.Inv n) (mem : o ∈ s.alive) :
    (s.assignEach o fun _ => 0).row o = 0 := by
  rw [(h.assignEach mem).2.1]
  funext i
  split_ifs with visited
  · rfl
  · exact congrFun (h.unvisited _ i (Nat.not_lt.mp visited)) _

section Objects

variable [DecidableEq Obj]

/-- A new instance has a row of zeros. -/
theorem Inv.construct (h : s.Inv n) (new : o ∉ s.alive) (room : s.alive.length + 1 < 2 ^ 32) :
    (s.construct n o).Inv n ∧ (s.construct n o).row o = 0 ∧
      ∀ u ∈ s.alive, (s.construct n o).row u = s.row u := by
  obtain ⟨fresh, serves, -⟩ := h.numbered.enter new room
  unfold State.construct
  generalize s.idAllocator.allocate .uint32 = id at *
  obtain ⟨id, idAllocator⟩ := id
  set s' : State Tid Obj V := { s with
    idAllocator
    alive := o :: s.alive
    object := Function.update s.object o (ofId n id.value) }
  have own : s'.object o = ofId n id.value := Function.update_self ..
  have others : ∀ u ∈ s.alive, s'.object u = s.object u := by
    intro u mem
    refine Function.update_of_ne ?_ _ _
    rintro rfl
    exact new mem
  have ids : s'.idOf = Function.update s.idOf o id.value := by
    funext u
    simp only [idOf, s', Function.update_apply]
    split_ifs
    · rfl
    · rfl
  have zero := h.blank _ fresh
  refine ⟨⟨?_, ?_, h.threads, h.few, h.short, h.unvisited, fun id' new' => ?_⟩, ?_, ?_⟩
  · rw [ids]
    exact serves
  · refine List.forall_mem_cons.mpr ⟨?_, fun u mem => ?_⟩
    · rw [own, ids, Function.update_self]
    · rw [others u mem, idOf, others u mem]
      exact h.placed u mem
  · refine h.blank id' fun mem => new' ?_
    obtain ⟨u, alive, rfl⟩ := List.mem_map.mp mem
    refine List.mem_map.mpr ⟨u, List.mem_cons_of_mem _ alive, ?_⟩
    rw [idOf, others u alive]
    rfl
  · funext i
    rw [row, storageOf, own]
    exact congrFun zero i
  · intro u mem
    funext i
    rw [row, storageOf, others u mem]
    rfl

/-- A move exchanges two rows. -/
theorem Inv.moveAssign (h : s.Inv n) {other : Obj} (mem : o ∈ s.alive) (mem' : other ∈ s.alive) :
    (s.moveAssign o other).Inv n ∧
      ∀ u, (s.moveAssign o other).row u = s.row (Equiv.swap o other u) := by
  have object : ∀ u, (s.moveAssign o other).object u = s.object (Equiv.swap o other u) :=
    fun u => congrFun (Equiv.comp_swap_eq_update o other s.object).symm u
  have swapped : ∀ u, Equiv.swap o other u ∈ s.alive ↔ u ∈ s.alive := by
    intro u
    rw [Equiv.swap_apply_def]
    split_ifs with e e'
    · exact e ▸ iff_of_true mem' mem
    · exact e' ▸ iff_of_true mem mem'
    · rfl
  have nodup : s.alive.Nodup := h.numbered.nodup.of_map _
  have alive : (s.alive.map (Equiv.swap o other)).Perm s.alive := by
    refine (List.perm_ext_iff_of_nodup (nodup.map (Equiv.injective _)) nodup).mpr fun u => ?_
    rw [List.mem_map_of_involutive (Equiv.swap_apply_self o other)]
    exact swapped u
  have ids : (s.alive.map s.idOf).Perm (s.alive.map (s.moveAssign o other).idOf) := by
    have : (s.moveAssign o other).idOf = s.idOf ∘ Equiv.swap o other :=
      funext fun u => congrArg instanceId (object u)
    rw [this, ← List.map_map]
    exact (alive.map s.idOf).symm
  refine ⟨⟨h.numbered.perm ids, fun u alive => ?_, h.threads, h.few, h.short, h.unvisited,
    fun id new => h.blank id fun used => new (ids.subset used)⟩, fun u => ?_⟩
  · rw [object u, idOf, object u]
    exact h.placed _ ((swapped u).mpr alive)
  · funext i
    rw [row, storageOf, object u]
    rfl

/-- The row of a destroyed instance is cleared before its number is given back. -/
theorem Inv.destroy (h : s.Inv n) (mem : o ∈ s.alive) :
    (s.destroy o).Inv n ∧
      ∀ u ∈ (s.destroy o).alive, u ∈ s.alive ∧ (s.destroy o).row u = s.row u := by
  obtain ⟨cleared, -, others⟩ := h.assignEach mem (f := fun _ => 0)
  have zero := h.row_clear mem
  rw [cleared.row_eq mem] at zero
  have nodup : s.alive.Nodup := h.numbered.nodup.of_map _
  refine ⟨⟨h.numbered.leave mem, fun u alive => h.placed u (List.mem_of_mem_erase alive),
    h.threads, h.few, cleared.short, cleared.unvisited, fun id new => ?_⟩, fun u alive => ?_⟩
  · by_cases e : id = s.idOf o
    · subst e
      exact zero
    · refine cleared.blank id fun used => new ?_
      obtain ⟨u, alive, rfl⟩ := List.mem_map.mp used
      refine List.mem_map_of_mem (f := s.idOf) ((List.mem_erase_of_ne ?_).mpr alive)
      rintro rfl
      exact e rfl
  · obtain ⟨ne, alive⟩ := nodup.mem_erase_iff.mp alive
    exact ⟨alive, others u alive ne⟩

end Objects

/-- When a thread ends, all rows stay as they are. -/
theorem Inv.exit [DecidableEq Tid] (h : s.Inv n) (t : Tid) :
    { s with threadIds := s.threadIds.exit t }.Inv n := by
  obtain ⟨threads, same⟩ := h.threads.exit (t := t)
  exact h.withThreads threads (same ▸ h.few) same.ge

end CompactEnumerableThreadLocal.State

end Fuxi.Base
