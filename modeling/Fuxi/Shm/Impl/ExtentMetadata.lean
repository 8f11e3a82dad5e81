import Fuxi.Base.FlatObjectQueue

/-!
# Free blocks of an extent

`ExtentLayout::Init` stocks a ring with block indices and `Extent::AcquireBlockToWrite`
takes one through `GetFreeBlockIndex`. `PutFreeBlockIndex` leaves the ring alone, so a
block index never comes back.
-/

namespace Fuxi.Shm.Impl

open Lib Base IdPool

namespace Extent

/-- The indices that the loop of `ExtentLayout::Init` enqueues; its bound is
`(uint16_t)block_num`. -/
def freeBlockIds (blockNum : Nat) : RteRing Nat × List Nat :=
  fill (RteRing.init 0 blockNum false false) (List.range (u16 blockNum))

/-- A writer starts `AcquireBlockToWrite` or goes on. -/
inductive Move
  | acquireBlockToWrite
  | step

/-- The step of `GetFreeBlockIndex`, which starts with `id = 0`. -/
def Move.toPool : Move → IdPool.Move Nat
  | acquireBlockToWrite => .take
  | step => .step

/-- Writers of one extent. -/
def machine (Tid : Type*) [DecidableEq Tid] (blockNum : Nat) :
    Machine (IdPool.State Tid Nat) (Tid × Move) where
  start s := s = stocked Tid (freeBlockIds blockNum)
  step s m := s.step 0 (fun _ => true) (m.1, m.2.toPool)

variable {Tid : Type*} [DecidableEq Tid]

theorem freeBlockIds_stocked (blockNum : Nat) :
    Stocked (freeBlockIds blockNum).1 (freeBlockIds blockNum).2 :=
  (stocked_init 0 blockNum false false).fill_nil _

theorem freeBlockIds_nodup (blockNum : Nat) : (freeBlockIds blockNum).2.Nodup := by
  rw [freeBlockIds, ((stocked_init ..).fill _).2.2]
  exact List.nodup_range.sublist (List.take_sublist ..)

/-- An extent of less than `2^16` blocks starts with all of them. -/
theorem freeBlockIds_eq {blockNum : Nat} (h : blockNum < 65536) :
    (freeBlockIds blockNum).2 = List.range blockNum := by
  have hnum : u16 blockNum = blockNum := Nat.mod_eq_of_lt h
  rw [freeBlockIds, ((stocked_init ..).fill _).2.2, hnum, List.take_of_length_le]
  rw [List.length_range, List.length_nil, Nat.sub_zero]
  exact RteRing.le_init_size _ _ _ (by omega)

/-- The writers are callers of the pool that never give anything back. -/
theorem reach_pool {blockNum : Nat} {s : IdPool.State Tid Nat}
    (h : (machine Tid blockNum).Reach inOrder s) :
    (IdPool.machine 0 (fun _ => true) (freeBlockIds blockNum)).Reach inOrder s := by
  induction h with
  | start h => exact .start h
  | step _ move side ih => exact .step ih move side

/-- Every block index sits in one place while the plain stores come in order. -/
theorem reach_exclusive (blockNum : Nat) {s : IdPool.State Tid Nat}
    (h : (machine Tid blockNum).Reach inOrder s) : Exclusive (freeBlockIds blockNum).2 s :=
  (reach_pooled (freeBlockIds_stocked blockNum) (freeBlockIds_nodup blockNum) (fun _ _ => rfl)
    (reach_pool h)).exclusive

end Extent

/-- Object ids and block indices have one holder at a time and none is lost, in every
run whose plain stores to the ring counters come in order. -/
theorem pools_exclusive {Tid : Type*} [DecidableEq Tid] :
    (∀ num (s : IdPool.State Tid Int), (FlatObjectQueue.machine Tid num).Reach inOrder s →
      Exclusive (FlatObjectQueue.initialized num).2 s ∧
        (num < 2147483648 → (FlatObjectQueue.initialized num).2 = (List.range num).map Int.ofNat)) ∧
    ∀ blockNum (s : IdPool.State Tid Nat), (Extent.machine Tid blockNum).Reach inOrder s →
      Exclusive (Extent.freeBlockIds blockNum).2 s ∧
        (blockNum < 65536 → (Extent.freeBlockIds blockNum).2 = List.range blockNum) :=
  ⟨fun num _ h => ⟨FlatObjectQueue.reach_exclusive num h, FlatObjectQueue.initialized_eq⟩,
    fun blockNum _ h => ⟨Extent.reach_exclusive blockNum h, Extent.freeBlockIds_eq⟩⟩

/-- Two calls that run at the same time: the second one loads the head when the first one has
stored it, and stores the tail when the first one has stored it. -/
def passing {ι : Type*} (first second step : ι) : List (Bool × ι) :=
  [(false, first), (true, second)] ++ List.replicate 3 (false, step) ++
    List.replicate 4 (true, step) ++ List.replicate 2 (false, step) ++ [(true, step)]

/-- Two calls that both read the head before either of them stores it. -/
def overlap {ι : Type*} (start step : ι) : List (Bool × ι) :=
  [(false, start), (true, start), (false, step), (true, step)] ++
    List.replicate 4 (false, step) ++ List.replicate 4 (true, step)

/-- Calls that overlap: two calls of `Get`, two of `Put` and two of `Get` in a pool of two objects,
and two writers of an extent of two blocks. -/
theorem pools_exclusive_passing :
    (∃ s, s.held false = [0] ∧ s.held true = [1] ∧
      Exclusive (FlatObjectQueue.initialized 2).2 s) ∧
      ∃ s, s.held false = [0] ∧ s.held true = [1] ∧ Exclusive (Extent.freeBlockIds 2).2 s := by
  constructor
  · let calls : List (Bool × IdPool.Move Int) :=
      passing .take .take .step ++ passing (.give 0) (.give 1) .step ++ passing .take .take .step
    have along : (FlatObjectQueue.machine Bool 2).Along inOrder
        (stocked Bool (FlatObjectQueue.initialized 2)) calls := by decide +kernel
    have held : ((FlatObjectQueue.machine Bool 2).run
        (stocked Bool (FlatObjectQueue.initialized 2)) calls).map
          (fun s => (s.held false, s.held true)) = some ([0], [1]) := by decide +kernel
    obtain ⟨s, -, reach, held⟩ := Machine.Reach.of_along_seen (.start rfl) along held
    obtain ⟨first, second⟩ := Prod.mk.inj held
    exact ⟨s, first, second, (pools_exclusive.1 2 s reach).1⟩
  · let calls : List (Bool × Extent.Move) :=
      passing .acquireBlockToWrite .acquireBlockToWrite .step
    have along : (Extent.machine Bool 2).Along inOrder (stocked Bool (Extent.freeBlockIds 2))
        calls := by decide +kernel
    have held : ((Extent.machine Bool 2).run (stocked Bool (Extent.freeBlockIds 2)) calls).map
        (fun s => (s.held false, s.held true)) = some ([0], [1]) := by decide +kernel
    obtain ⟨s, -, reach, held⟩ := Machine.Reach.of_along_seen (.start rfl) along held
    obtain ⟨first, second⟩ := Prod.mk.inj held
    exact ⟨s, first, second, (pools_exclusive.2 2 s reach).1⟩

/-- Two overlapping calls get the same object and the same block: both read the head
before either stores it. -/
theorem pools_share :
    (∃ s, (FlatObjectQueue.machine Bool 1).Reach Machine.free s ∧
      0 ∈ s.held false ∧ 0 ∈ s.held true) ∧
    ∃ s, (Extent.machine Bool 1).Reach Machine.free s ∧ 0 ∈ s.held false ∧ 0 ∈ s.held true := by
  constructor
  · have held : ((FlatObjectQueue.machine Bool 1).run
        (stocked Bool (FlatObjectQueue.initialized 1)) (overlap .take .step)).map
          (fun s => (s.held false, s.held true)) = some ([0], [0]) := by decide +kernel
    obtain ⟨s, run, held⟩ := Option.map_eq_some_iff.mp held
    have held := Prod.mk.inj held
    exact ⟨s, Machine.Reach.of_run (.start rfl) run, by simp [held.1], by simp [held.2]⟩
  · have held : ((Extent.machine Bool 1).run (stocked Bool (Extent.freeBlockIds 1))
        (overlap .acquireBlockToWrite .step)).map (fun s => (s.held false, s.held true)) =
          some ([0], [0]) := by decide +kernel
    obtain ⟨s, run, held⟩ := Option.map_eq_some_iff.mp held
    have held := Prod.mk.inj held
    exact ⟨s, Machine.Reach.of_run (.start rfl) run, by simp [held.1], by simp [held.2]⟩

end Fuxi.Shm.Impl
