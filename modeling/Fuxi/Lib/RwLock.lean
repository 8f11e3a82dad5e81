import Fuxi.Lib.Census

/-!
# Locks for readers and writers

A lock that admits one writer or any number of readers. When the places of the threads tell
who has locked it, and how, then a reader is never at a place of its own next to a writer.
-/

namespace Fuxi.Lib

/-- The lock is held by so many readers, or by a writer. -/
inductive RwLock
  | readers (n : Nat)
  | writer
  deriving DecidableEq

namespace RwLock

/-- Nobody holds the lock. -/
def free : RwLock := .readers 0

/-- A reader waits for a writer. -/
def readLock : RwLock → Option RwLock
  | .readers n => some (.readers (n + 1))
  | .writer => none

/-- A writer waits for everybody else. -/
def writeLock : RwLock → Option RwLock
  | .readers 0 => some .writer
  | .readers (_ + 1) | .writer => none

/-- One who holds the lock gives it back. -/
def unlock : RwLock → RwLock
  | .readers n => .readers (n - 1)
  | .writer => free

def readerNum : RwLock → Nat
  | .readers n => n
  | .writer => 0

def writerNum : RwLock → Nat
  | .readers _ => 0
  | .writer => 1

/-- `reads` and `writes` are the places of those who hold the lock. -/
structure Guards {T P : Type*} [Fintype T] (lock : RwLock) (pc : T → P) (reads writes : P → Bool) :
    Prop where
  readers : census pc reads = lock.readerNum
  writers : census pc writes = lock.writerNum

namespace Guards

variable {T P : Type*} [Fintype T] {lock lock' : RwLock} {pc : T → P} {reads writes : P → Bool}
  {t u : T}

/-- Nobody holds the lock at first. -/
theorem start (out : ∀ t, reads (pc t) = false ∧ writes (pc t) = false) :
    Guards free pc reads writes :=
  ⟨census_eq_zero_iff.mpr fun t => (out t).1, census_eq_zero_iff.mpr fun t => (out t).2⟩

/-- There is no writer next to a reader. -/
theorem no_writer (h : Guards lock pc reads writes) (reader : reads (pc t) = true) (u : T) :
    writes (pc u) = false := by
  have some : 0 < census pc reads := census_pos_iff.mpr ⟨t, reader⟩
  have none : census pc writes = 0 := by
    have readers := h.readers
    have writers := h.writers
    cases lock with
    | readers n => exact writers
    | writer => exact absurd readers some.ne'
  exact census_eq_zero_iff.mp none u

theorem no_reader (h : Guards lock pc reads writes) (writer : writes (pc t) = true) (u : T) :
    reads (pc u) = false := by
  by_contra reader
  rw [Bool.not_eq_false] at reader
  rw [h.no_writer reader t] at writer
  cases writer

variable [DecidableEq T] {x : P}

/-- There is one writer at most. -/
theorem one_writer (h : Guards lock pc reads writes) (ht : writes (pc t) = true)
    (hu : writes (pc u) = true) : t = u := by
  refine eq_of_census_le_one ?_ ht hu
  rw [h.writers]
  cases lock with
  | readers n => exact Nat.zero_le 1
  | writer => exact le_rfl

/-- A thread goes on and does not touch the lock. -/
theorem stay (h : Guards lock pc reads writes) (same : reads x = reads (pc t))
    (same' : writes x = writes (pc t)) : Guards lock (Function.update pc t x) reads writes := by
  have readers := census_update pc t x reads
  have writers := census_update pc t x writes
  rw [same] at readers
  rw [same'] at writers
  exact ⟨(Nat.add_right_cancel readers).trans h.readers,
    (Nat.add_right_cancel writers).trans h.writers⟩

theorem lockRead (h : Guards lock pc reads writes) (locks : lock.readLock = some lock')
    (old : reads (pc t) = false ∧ writes (pc t) = false) (new : reads x = true ∧ writes x = false) :
    Guards lock' (Function.update pc t x) reads writes := by
  have readers := census_update pc t x reads
  have writers := census_update pc t x writes
  rw [old.1, new.1, h.readers] at readers
  rw [old.2, new.2, h.writers] at writers
  cases lock with
  | readers n =>
    cases locks
    exact ⟨readers, writers⟩
  | writer => cases locks

theorem lockWrite (h : Guards lock pc reads writes) (locks : lock.writeLock = some lock')
    (old : reads (pc t) = false ∧ writes (pc t) = false) (new : reads x = false ∧ writes x = true) :
    Guards lock' (Function.update pc t x) reads writes := by
  have readers := census_update pc t x reads
  have writers := census_update pc t x writes
  rw [old.1, new.1, h.readers] at readers
  rw [old.2, new.2, h.writers] at writers
  match lock, locks with
  | .readers 0, rfl => exact ⟨readers, writers⟩

/-- A reader or the writer gives the lock back. -/
theorem leave (h : Guards lock pc reads writes)
    (old : reads (pc t) = true ∨ writes (pc t) = true) (new : reads x = false ∧ writes x = false) :
    Guards lock.unlock (Function.update pc t x) reads writes := by
  have readers := census_update pc t x reads
  have writers := census_update pc t x writes
  rw [new.1, h.readers] at readers
  rw [new.2, h.writers] at writers
  obtain reader | writer := old
  · rw [reader] at readers
    rw [h.no_writer reader] at writers
    cases lock with
    | readers n => exact ⟨Nat.eq_sub_of_add_eq readers, writers⟩
    | writer => exact absurd readers (Nat.succ_ne_zero _)
  · rw [writer] at writers
    rw [h.no_reader writer] at readers
    cases lock with
    | readers n => exact absurd writers (Nat.succ_ne_zero _)
    | writer => exact ⟨readers, Nat.add_right_cancel writers⟩

end Guards

end RwLock

end Fuxi.Lib
