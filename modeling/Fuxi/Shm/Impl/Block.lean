import Fuxi.Lib.Machine
import Fuxi.Lib.RwLock
import Fuxi.Lib.Word

/-!
# The locks of a `Block`

A block is locked by a writer or by readers. Who wants to lock it looks at the flag and the
counter under a lock that the processes share, in the mode of a writer or of a reader. Who
releases it changes the flag or the counter without that lock.
-/

namespace Fuxi.Shm.Block

open Lib

variable {Caller : Type*}

/-- What a caller does next. `writeHeld` and `readHeld` are callers whose call has returned
true. -/
inductive Pc
  | idle
  | writeLock
  | writeLoadFlag
  | writeLoadCount
  | writeStore
  | writeUnlock (ret : Bool)
  | writeHeld
  | writeRelease
  | readLock
  | readLoadFlag
  | readAdd
  | readUnlock (ret : Bool)
  | readHeld
  | readRelease
  deriving DecidableEq

/-- The fields of a block that the calls use, and the callers. -/
structure State (Caller : Type*) where
  isWriting : Bool := false
  readingReferenceCounts : Nat := 0
  readWriteMutex : RwLock := .free
  pc : Caller → Pc := fun _ => .idle

/-- A caller starts a call or goes on. -/
inductive Move
  | tryLockForWrite
  | tryLockForRead
  | releaseWriteLock
  | releaseReadLock
  | step

namespace State

variable [DecidableEq Caller]

def goto (s : State Caller) (t : Caller) (p : Pc) : State Caller :=
  { s with pc := Function.update s.pc t p }

/-- The next step of a caller: one atomic access, or one operation on the lock. -/
def advance (s : State Caller) (t : Caller) : Option (State Caller) :=
  match s.pc t with
  | .idle | .writeHeld | .readHeld => none
  | .writeLock => s.readWriteMutex.writeLock.map fun lock =>
      { s.goto t .writeLoadFlag with readWriteMutex := lock }
  | .writeLoadFlag => some (s.goto t (if s.isWriting then .writeUnlock false else .writeLoadCount))
  | .writeLoadCount =>
    some (s.goto t (if s.readingReferenceCounts ≠ 0 then .writeUnlock false else .writeStore))
  | .writeStore => some { s.goto t (.writeUnlock true) with isWriting := true }
  | .writeUnlock ret =>
    some { s.goto t (if ret then .writeHeld else .idle) with
      readWriteMutex := s.readWriteMutex.unlock }
  | .writeRelease => some { s.goto t .idle with isWriting := false }
  | .readLock => s.readWriteMutex.readLock.map fun lock =>
      { s.goto t .readLoadFlag with readWriteMutex := lock }
  | .readLoadFlag => some (s.goto t (if s.isWriting then .readUnlock false else .readAdd))
  | .readAdd =>
    some { s.goto t (.readUnlock true) with
      readingReferenceCounts := u32 (s.readingReferenceCounts + 1) }
  | .readUnlock ret =>
    some { s.goto t (if ret then .readHeld else .idle) with
      readWriteMutex := s.readWriteMutex.unlock }
  | .readRelease =>
    some { s.goto t .idle with
      readingReferenceCounts := sub32 s.readingReferenceCounts 1 }

/-- A lock is released only by a caller whose call has returned true. -/
def step (s : State Caller) : Caller × Move → Option (State Caller)
  | (t, .tryLockForWrite) => if s.pc t = .idle then some (s.goto t .writeLock) else none
  | (t, .tryLockForRead) => if s.pc t = .idle then some (s.goto t .readLock) else none
  | (t, .releaseWriteLock) => if s.pc t = .writeHeld then some (s.goto t .writeRelease) else none
  | (t, .releaseReadLock) => if s.pc t = .readHeld then some (s.goto t .readRelease) else none
  | (t, .step) => s.advance t

end State

/-- Any number of callers and one block. -/
def machine (Caller : Type*) [DecidableEq Caller] : Machine (State Caller) (Caller × Move) where
  start s := s = {}
  step := State.step

/-! ## Where the callers are -/

namespace Pc

/-- In the part of `TryLockForRead` that holds the lock. -/
def inRead : Pc → Bool
  | .readLoadFlag | .readAdd | .readUnlock _ => true
  | _ => false

/-- In the part of `TryLockForWrite` that holds the lock. -/
def inWrite : Pc → Bool
  | .writeLoadFlag | .writeLoadCount | .writeStore | .writeUnlock _ => true
  | _ => false

/-- About to return true, holding the block, or about to clear the flag. -/
def flags : Pc → Bool
  | .writeUnlock ret => ret
  | .writeHeld | .writeRelease => true
  | _ => false

/-- About to return true, holding the block, or about to drop the count. -/
def counts : Pc → Bool
  | .readUnlock ret => ret
  | .readHeld | .readRelease => true
  | _ => false

/-- Has seen the flag down, and the flag is to stay down. -/
def sawFlag : Pc → Bool
  | .writeLoadCount | .writeStore | .readAdd => true
  | _ => false

/-- A caller who has seen the flag down is in the part of a call that holds the lock. -/
theorem inside_of_sawFlag {p : Pc} (saw : p.sawFlag = true) :
    p.inRead = true ∨ p.inWrite = true := by
  cases p <;> simp_all [sawFlag, inRead, inWrite]

end Pc

namespace State

/-- One caller moves, and the others stay where they are. -/
theorem forall_goto [DecidableEq Caller] {pc : Caller → Pc} {t : Caller} {p : Pc} (q : Pc → Prop)
    (new : q p) (others : ∀ u, u ≠ t → q (pc u)) (u : Caller) :
    q (Function.update pc t p u) := by
  obtain rfl | ne := eq_or_ne u t
  · rwa [Function.update_self]
  · rw [Function.update_of_ne ne]
    exact others u ne

variable [Fintype Caller]

/-- Read holders, and those who are about to return true or to drop their count. -/
def readerNum (s : State Caller) : Nat := census s.pc Pc.counts

/-- Lock, flag and counter are as the places of the callers say. -/
structure Kept (s : State Caller) : Prop where
  lock : s.readWriteMutex.Guards s.pc Pc.inRead Pc.inWrite
  flag : census s.pc Pc.flags = s.isWriting.toNat
  count : s.readingReferenceCounts = u32 s.readerNum
  saw : ∀ t, (s.pc t).sawFlag = true → s.isWriting = false

/-- Nobody is counted as a reader while the block is locked for a writer, or is about to be. -/
structure Alone (s : State Caller) : Prop where
  writing : s.isWriting = true → s.readerNum = 0
  storing : ∀ t, s.pc t = .writeStore → s.readerNum = 0

theorem kept_start : Kept ({} : State Caller) where
  lock := RwLock.Guards.start fun _ => ⟨rfl, rfl⟩
  flag := census_eq_zero_iff.mpr fun _ => rfl
  count := by
    have none : readerNum ({} : State Caller) = 0 := census_eq_zero_iff.mpr fun _ => rfl
    rw [none]
    rfl
  saw _ seen := Bool.noConfusion seen

theorem alone_start : Alone ({} : State Caller) where
  writing up := Bool.noConfusion up
  storing _ store := Pc.noConfusion store

variable [DecidableEq Caller] {s s' : State Caller} {t : Caller} {old p : Pc} {lock : RwLock}

namespace Kept

/-- A step that touches neither the flag nor the counter. -/
theorem move (h : Kept s) (at' : s.pc t = old)
    (guards : lock.Guards (Function.update s.pc t p) Pc.inRead Pc.inWrite)
    (flags : p.flags = old.flags) (counts : p.counts = old.counts)
    (saw : p.sawFlag = true → s.isWriting = false) :
    Kept { s.goto t p with readWriteMutex := lock } := by
  have flag := census_update s.pc t p Pc.flags
  have count := census_update s.pc t p Pc.counts
  rw [at', flags] at flag
  rw [at', counts] at count
  refine ⟨guards, (Nat.add_right_cancel flag).trans h.flag, ?_, ?_⟩
  · exact h.count.trans (congrArg u32 (Nat.add_right_cancel count).symm)
  · exact forall_goto (·.sawFlag = true → s.isWriting = false) saw fun u _ => h.saw u

/-- The lock while a caller moves within the same part of a call. -/
theorem stay (h : Kept s) (at' : s.pc t = old) (reads : p.inRead = old.inRead)
    (writes : p.inWrite = old.inWrite) :
    s.readWriteMutex.Guards (Function.update s.pc t p) Pc.inRead Pc.inWrite := by
  refine h.lock.stay ?_ ?_
  · rw [at', reads]
  · rw [at', writes]

/-- A step in which only the caller moves. -/
theorem go (h : Kept s) (at' : s.pc t = old) (flags : p.flags = old.flags)
    (counts : p.counts = old.counts) (reads : p.inRead = old.inRead)
    (writes : p.inWrite = old.inWrite) (saw : p.sawFlag = true → s.isWriting = false) :
    Kept (s.goto t p) :=
  h.move at' (h.stay at' reads writes) flags counts saw

/-- While a caller is about to set the flag, nobody else has seen it down. -/
theorem writeStore (h : Kept s) (at' : s.pc t = .writeStore) :
    Kept { s.goto t (.writeUnlock true) with isWriting := true } := by
  have down : s.isWriting = false := h.saw t (by rw [at']; rfl)
  have writer : (s.pc t).inWrite = true := by rw [at']; rfl
  have flag := census_update s.pc t (.writeUnlock true) Pc.flags
  have count := census_update s.pc t (.writeUnlock true) Pc.counts
  rw [at', h.flag, down] at flag
  rw [at'] at count
  refine ⟨h.stay at' rfl rfl, flag, ?_, ?_⟩
  · exact h.count.trans (congrArg u32 (Nat.add_right_cancel count).symm)
  · refine forall_goto (·.sawFlag = true → true = false) (fun saw => Bool.noConfusion saw)
      fun u ne saw => ?_
    obtain reader | writer' := Pc.inside_of_sawFlag saw
    · rw [h.lock.no_reader writer] at reader
      cases reader
    · exact absurd (h.lock.one_writer writer' writer) ne

theorem writeRelease (h : Kept s) (at' : s.pc t = .writeRelease) :
    Kept { s.goto t .idle with isWriting := false } := by
  have flag := census_update s.pc t .idle Pc.flags
  have count := census_update s.pc t .idle Pc.counts
  have le : s.isWriting.toNat ≤ 1 := Bool.toNat_le _
  rw [at', h.flag] at flag
  rw [at'] at count
  refine ⟨h.stay at' rfl rfl, ?_, ?_, fun _ _ => rfl⟩
  · have one : census (Function.update s.pc t .idle) Pc.flags + 1 = s.isWriting.toNat := flag
    exact Nat.le_zero.mp (Nat.le_of_succ_le_succ (one.le.trans le))
  · exact h.count.trans (congrArg u32 (Nat.add_right_cancel count).symm)

theorem readAdd (h : Kept s) (at' : s.pc t = .readAdd) :
    Kept { s.goto t (.readUnlock true) with
      readingReferenceCounts := u32 (s.readingReferenceCounts + 1) } := by
  have flag := census_update s.pc t (.readUnlock true) Pc.flags
  have count := census_update s.pc t (.readUnlock true) Pc.counts
  rw [at'] at flag count
  refine ⟨h.stay at' rfl rfl, (Nat.add_right_cancel flag).trans h.flag, ?_, ?_⟩
  · have more : census (Function.update s.pc t (.readUnlock true)) Pc.counts = s.readerNum + 1 :=
      count
    calc u32 (s.readingReferenceCounts + 1) = u32 (u32 s.readerNum + 1) := by rw [h.count]
      _ = u32 (s.readerNum + 1) := Nat.mod_add_mod ..
      _ = u32 (census (Function.update s.pc t (.readUnlock true)) Pc.counts) := by rw [more]
  · exact forall_goto (·.sawFlag = true → s.isWriting = false) (fun saw => Bool.noConfusion saw)
      fun u _ => h.saw u

theorem readRelease (h : Kept s) (at' : s.pc t = .readRelease) :
    Kept { s.goto t .idle with
      readingReferenceCounts := sub32 s.readingReferenceCounts 1 } := by
  have flag := census_update s.pc t .idle Pc.flags
  have count := census_update s.pc t .idle Pc.counts
  rw [at'] at flag count
  refine ⟨h.stay at' rfl rfl, (Nat.add_right_cancel flag).trans h.flag, ?_, ?_⟩
  · have less : census (Function.update s.pc t .idle) Pc.counts + 1 = s.readerNum := count
    have back (n : Nat) : sub32 (u32 (n + 1)) 1 = u32 n := by
      unfold sub32 u32
      omega
    calc sub32 s.readingReferenceCounts 1
        = sub32 (u32 (census (Function.update s.pc t .idle) Pc.counts + 1)) 1 := by
          rw [h.count, less]
      _ = u32 (census (Function.update s.pc t .idle) Pc.counts) := back _
  · exact forall_goto (·.sawFlag = true → s.isWriting = false) (fun saw => Bool.noConfusion saw)
      fun u _ => h.saw u

/-- The next step of a caller. -/
theorem advance (h : Kept s) (hs : s.advance t = some s') : Kept s' := by
  cases at' : s.pc t with
  | idle | writeHeld | readHeld => simp [State.advance, at'] at hs
  | writeLock =>
    simp only [State.advance, at'] at hs
    obtain ⟨lock, locks, rfl⟩ := Option.map_eq_some_iff.mp hs
    refine h.move at' (h.lock.lockWrite locks ?_ ⟨rfl, rfl⟩) rfl rfl fun saw => Bool.noConfusion saw
    rw [at']
    exact ⟨rfl, rfl⟩
  | writeLoadFlag =>
    simp only [State.advance, at'] at hs
    cases hs
    split_ifs with up
    · exact h.go at' rfl rfl rfl rfl fun saw => Bool.noConfusion saw
    · exact h.go at' rfl rfl rfl rfl fun _ => Bool.eq_false_of_not_eq_true up
  | writeLoadCount =>
    have down : s.isWriting = false := h.saw t (by rw [at']; rfl)
    simp only [State.advance, at'] at hs
    cases hs
    split_ifs <;> exact h.go at' rfl rfl rfl rfl fun _ => down
  | writeStore =>
    simp only [State.advance, at'] at hs
    cases hs
    exact h.writeStore at'
  | writeUnlock ret =>
    simp only [State.advance, at'] at hs
    cases hs
    have leave := h.lock.leave (t := t) (x := if ret then .writeHeld else .idle)
      (Or.inr (by rw [at']; rfl)) (by cases ret <;> exact ⟨rfl, rfl⟩)
    refine h.move at' leave ?_ ?_ ?_ <;> cases ret <;> simp [Pc.flags, Pc.counts, Pc.sawFlag]
  | writeRelease =>
    simp only [State.advance, at'] at hs
    cases hs
    exact h.writeRelease at'
  | readLock =>
    simp only [State.advance, at'] at hs
    obtain ⟨lock, locks, rfl⟩ := Option.map_eq_some_iff.mp hs
    refine h.move at' (h.lock.lockRead locks ?_ ⟨rfl, rfl⟩) rfl rfl fun saw => Bool.noConfusion saw
    rw [at']
    exact ⟨rfl, rfl⟩
  | readLoadFlag =>
    simp only [State.advance, at'] at hs
    cases hs
    split_ifs with up
    · exact h.go at' rfl rfl rfl rfl fun saw => Bool.noConfusion saw
    · exact h.go at' rfl rfl rfl rfl fun _ => Bool.eq_false_of_not_eq_true up
  | readAdd =>
    simp only [State.advance, at'] at hs
    cases hs
    exact h.readAdd at'
  | readUnlock ret =>
    simp only [State.advance, at'] at hs
    cases hs
    have leave := h.lock.leave (t := t) (x := if ret then .readHeld else .idle)
      (Or.inl (by rw [at']; rfl)) (by cases ret <;> exact ⟨rfl, rfl⟩)
    refine h.move at' leave ?_ ?_ ?_ <;> cases ret <;> simp [Pc.flags, Pc.counts, Pc.sawFlag]
  | readRelease =>
    simp only [State.advance, at'] at hs
    cases hs
    exact h.readRelease at'

end Kept

theorem Kept.step (h : Kept s) {i : Caller × Move} (hs : s.step i = some s') : Kept s' := by
  obtain ⟨t, m⟩ := i
  cases m with
  | tryLockForWrite =>
    obtain ⟨at', hs⟩ := Option.ite_none_right_eq_some.mp hs
    cases hs
    exact h.go at' rfl rfl rfl rfl fun saw => Bool.noConfusion saw
  | tryLockForRead =>
    obtain ⟨at', hs⟩ := Option.ite_none_right_eq_some.mp hs
    cases hs
    exact h.go at' rfl rfl rfl rfl fun saw => Bool.noConfusion saw
  | releaseWriteLock =>
    obtain ⟨at', hs⟩ := Option.ite_none_right_eq_some.mp hs
    cases hs
    exact h.go at' rfl rfl rfl rfl fun saw => Bool.noConfusion saw
  | releaseReadLock =>
    obtain ⟨at', hs⟩ := Option.ite_none_right_eq_some.mp hs
    cases hs
    exact h.go at' rfl rfl rfl rfl fun saw => Bool.noConfusion saw
  | step => exact h.advance hs

/-- What happens to the number of readers when a caller moves. -/
theorem readerNum_goto (at' : s.pc t = old) (p : Pc) :
    (s.goto t p).readerNum + old.counts.toNat = s.readerNum + p.counts.toNat := by
  have moved := census_update s.pc t p Pc.counts
  rwa [at'] at moved

namespace Alone

/-- A step that adds no reader and does not set the flag or get ready for that. -/
theorem calm (h : Alone s) (at' : s.pc t = old) (pc : s'.pc = Function.update s.pc t p)
    (flag : s'.isWriting = true → s.isWriting = true)
    (counts : p.counts.toNat ≤ old.counts.toNat) (store : p ≠ .writeStore) : Alone s' := by
  have moved := readerNum_goto at' p
  have same : s'.readerNum = (s.goto t p).readerNum := congrArg (census · Pc.counts) pc
  have le : s'.readerNum ≤ s.readerNum := by omega
  refine ⟨fun up => ?_, fun u store' => ?_⟩
  · exact Nat.le_zero.mp (le.trans (h.writing (flag up)).le)
  · rw [pc] at store'
    obtain rfl | ne := eq_or_ne u t
    · rw [Function.update_self] at store'
      exact absurd store' store
    · rw [Function.update_of_ne ne] at store'
      exact Nat.le_zero.mp (le.trans (h.storing u store').le)

/-- The counter shows that there is no reader. -/
theorem writeLoadCount (at' : s.pc t = .writeLoadCount) (none : s.readerNum = 0) :
    Alone (s.goto t .writeStore) := by
  have moved := readerNum_goto at' .writeStore
  have same : (s.goto t .writeStore).readerNum = 0 := moved.trans none
  exact ⟨fun _ => same, fun _ _ => same⟩

theorem writeStore (h : Alone s) (at' : s.pc t = .writeStore) :
    Alone { s.goto t (.writeUnlock true) with isWriting := true } := by
  have moved := readerNum_goto at' (.writeUnlock true)
  have same : (s.goto t (.writeUnlock true)).readerNum = 0 := moved.trans (h.storing t at')
  exact ⟨fun _ => same, fun _ _ => same⟩

/-- A reader in front of its `fetch_add` holds the lock and has seen the flag down. -/
theorem readAdd (h : Kept s) (at' : s.pc t = .readAdd) (count : Nat) :
    Alone { s.goto t (.readUnlock true) with readingReferenceCounts := count } := by
  have down : s.isWriting = false := h.saw t (by rw [at']; rfl)
  have reader : (s.pc t).inRead = true := by rw [at']; rfl
  refine ⟨fun up => ?_, fun u store => ?_⟩
  · have up : s.isWriting = true := up
    rw [down] at up
    cases up
  · have store : Function.update s.pc t (.readUnlock true) u = .writeStore := store
    obtain rfl | ne := eq_or_ne u t
    · rw [Function.update_self] at store
      cases store
    · rw [Function.update_of_ne ne] at store
      have writer := h.lock.no_writer reader u
      rw [store] at writer
      cases writer

/-- The next step of a caller, while the counter has not wrapped around. -/
theorem advance (h : Alone s) (kept : Kept s) (few : s.readerNum < 4294967296)
    (hs : s.advance t = some s') : Alone s' := by
  cases at' : s.pc t with
  | idle | writeHeld | readHeld => simp [State.advance, at'] at hs
  | writeLock =>
    simp only [State.advance, at'] at hs
    obtain ⟨lock, -, rfl⟩ := Option.map_eq_some_iff.mp hs
    exact h.calm at' rfl id le_rfl nofun
  | readLock =>
    simp only [State.advance, at'] at hs
    obtain ⟨lock, -, rfl⟩ := Option.map_eq_some_iff.mp hs
    exact h.calm at' rfl id le_rfl nofun
  | writeLoadFlag =>
    simp only [State.advance, at'] at hs
    cases hs
    split_ifs <;> exact h.calm at' rfl id le_rfl nofun
  | readLoadFlag =>
    simp only [State.advance, at'] at hs
    cases hs
    split_ifs <;> exact h.calm at' rfl id le_rfl nofun
  | writeLoadCount =>
    simp only [State.advance, at'] at hs
    cases hs
    split_ifs with some
    · exact h.calm at' rfl id le_rfl nofun
    · refine writeLoadCount at' ?_
      have zero := kept.count
      rwa [not_not.mp some, u32_of_lt few, eq_comm] at zero
  | writeStore =>
    simp only [State.advance, at'] at hs
    cases hs
    exact h.writeStore at'
  | writeUnlock ret =>
    simp only [State.advance, at'] at hs
    cases hs
    cases ret <;> exact h.calm at' rfl id le_rfl nofun
  | writeRelease =>
    simp only [State.advance, at'] at hs
    cases hs
    exact h.calm at' rfl (fun up => Bool.noConfusion up) le_rfl nofun
  | readAdd =>
    simp only [State.advance, at'] at hs
    cases hs
    exact readAdd kept at' _
  | readUnlock ret =>
    simp only [State.advance, at'] at hs
    cases hs
    cases ret <;> exact h.calm at' rfl id le_rfl nofun
  | readRelease =>
    simp only [State.advance, at'] at hs
    cases hs
    exact h.calm at' rfl id (Nat.zero_le _) nofun

theorem step (h : Alone s) (kept : Kept s) (few : s.readerNum < 4294967296) {i : Caller × Move}
    (hs : s.step i = some s') : Alone s' := by
  obtain ⟨t, m⟩ := i
  cases m with
  | tryLockForWrite =>
    obtain ⟨at', hs⟩ := Option.ite_none_right_eq_some.mp hs
    cases hs
    exact h.calm at' rfl id le_rfl nofun
  | tryLockForRead =>
    obtain ⟨at', hs⟩ := Option.ite_none_right_eq_some.mp hs
    cases hs
    exact h.calm at' rfl id le_rfl nofun
  | releaseWriteLock =>
    obtain ⟨at', hs⟩ := Option.ite_none_right_eq_some.mp hs
    cases hs
    exact h.calm at' rfl id le_rfl nofun
  | releaseReadLock =>
    obtain ⟨at', hs⟩ := Option.ite_none_right_eq_some.mp hs
    cases hs
    exact h.calm at' rfl id le_rfl nofun
  | step => exact h.advance kept few hs

end Alone

/-! ### Runs -/

/-- The flag excludes writers from each other, and the counter shows the readers modulo 2^32. -/
theorem kept_of_reach {ok : State Caller → Caller × Move → State Caller → Prop}
    (h : (machine Caller).Reach ok s) : Kept s := by
  refine h.inv (P := Kept) ?_ fun _ _ _ kept hs _ => kept.step hs
  rintro s rfl
  exact kept_start

theorem Kept.one_writer (h : Kept s) {u : Caller} (ht : s.pc t = .writeHeld)
    (hu : s.pc u = .writeHeld) : t = u := by
  have one : census s.pc Pc.flags ≤ 1 := by
    rw [h.flag]
    exact Bool.toNat_le _
  exact eq_of_census_le_one one (by rw [ht]; rfl) (by rw [hu]; rfl)

/-- Fewer than 2^32 callers are counted as readers. -/
def fewReaders (_ : State Caller) (_ : Caller × Move) (s' : State Caller) : Prop :=
  s'.readerNum < 4294967296

/-- Two writers do not hold the block, nor do a writer and a reader, and the counter shows the
readers. -/
structure Excludes (s : State Caller) : Prop where
  writers : ∀ t u, s.pc t = .writeHeld → s.pc u = .writeHeld → t = u
  readers : ∀ t u, s.pc t = .writeHeld → s.pc u ≠ .readHeld
  count : s.readingReferenceCounts = s.readerNum

theorem Alone.excludes (h : Alone s) (kept : Kept s) (few : s.readerNum < 4294967296) :
    Excludes s := by
  refine ⟨fun _ _ ht hu => kept.one_writer ht hu, fun t u ht hu => ?_,
    kept.count.trans (u32_of_lt few)⟩
  have set : 0 < s.isWriting.toNat := by
    rw [← kept.flag]
    exact census_pos_iff.mpr ⟨t, by rw [ht]; rfl⟩
  have none : s.readerNum = 0 := h.writing (by simpa [Nat.pos_iff_ne_zero] using set)
  have counted := census_eq_zero_iff.mp none u
  rw [hu] at counted
  cases counted

/-- In every run there is one write holder at most, and the counter shows the readers modulo
2^32. As long as these are fewer than 2^32, there is no read holder next to a write holder. -/
theorem excludes_of_reach (h : (machine Caller).Reach Machine.free s) :
    (∀ t u, s.pc t = .writeHeld → s.pc u = .writeHeld → t = u) ∧
      s.readingReferenceCounts = u32 s.readerNum ∧
        ((machine Caller).Reach fewReaders s → Excludes s) := by
  have kept := kept_of_reach h
  refine ⟨fun _ _ ht hu => kept.one_writer ht hu, kept.count, fun reach => ?_⟩
  have inv : Kept s ∧ Alone s ∧ s.readerNum < 4294967296 := by
    refine reach.inv (P := fun s => Kept s ∧ Alone s ∧ s.readerNum < 4294967296) ?_
      fun s i s' inv hs few => ?_
    · rintro s rfl
      have none : readerNum ({} : State Caller) = 0 := census_eq_zero_iff.mpr fun _ => rfl
      exact ⟨kept_start, alone_start, none.trans_lt (by decide)⟩
    · obtain ⟨kept, alone, before⟩ := inv
      exact ⟨kept.step hs, alone.step kept before hs, few⟩
  exact inv.2.1.excludes inv.1 inv.2.2

instance (s : State Caller) (i : Caller × Move) (s' : State Caller) :
    Decidable (fewReaders s i s') := Nat.decLt ..

/-- The first caller reads, the second one tries to write in vain, and again after the first
one has released the block. -/
def writeAfterRead : List (Fin 2 × Move) :=
  [(0, .tryLockForRead), (1, .tryLockForWrite), (0, .step), (0, .step), (0, .step), (0, .step),
    (1, .step), (1, .step), (1, .step), (1, .step), (0, .releaseReadLock), (1, .tryLockForWrite),
    (1, .step), (1, .step), (0, .step), (1, .step), (1, .step), (1, .step)]

theorem excludes_of_reach_writeAfterRead :
    ∃ s, (machine (Fin 2)).run {} writeAfterRead = some s ∧ s.pc 0 = .idle ∧
      s.pc 1 = .writeHeld ∧ Excludes s := by
  have along : (machine (Fin 2)).Along fewReaders {} writeAfterRead := by decide +kernel
  have seen : ((machine (Fin 2)).run {} writeAfterRead).map (fun s => (s.pc 0, s.pc 1)) =
      some (.idle, .writeHeld) := by decide +kernel
  obtain ⟨s, run, reach, seen⟩ := Machine.Reach.of_along_seen (.start rfl) along seen
  obtain ⟨first, second⟩ := Prod.mk.inj seen
  have anyway : (machine (Fin 2)).Reach Machine.free s := .of_run (.start rfl) run
  exact ⟨s, run, first, second, (excludes_of_reach anyway).2.2 reach⟩

/-! ### Too many readers -/

omit [Fintype Caller] in
/-- A call of `TryLockForRead` that nobody disturbs. -/
theorem run_tryLockForRead (idle : s.pc t = .idle) (down : s.isWriting = false)
    {n : Nat} (readers : s.readWriteMutex = .readers n) :
    (machine Caller).run s
        [(t, .tryLockForRead), (t, .step), (t, .step), (t, .step), (t, .step)] =
      some { s with
        readingReferenceCounts := u32 (s.readingReferenceCounts + 1)
        pc := Function.update s.pc t .readHeld } := by
  obtain ⟨flag, count, lock, pc⟩ := s
  simp only at idle down readers
  subst down readers
  simp [machine, State.step, State.advance, goto, idle, RwLock.readLock, RwLock.unlock]

omit [Fintype Caller] in
/-- A call of `TryLockForWrite` that nobody disturbs. -/
theorem run_tryLockForWrite (idle : s.pc t = .idle) (down : s.isWriting = false)
    (free : s.readWriteMutex = .free) (none : s.readingReferenceCounts = 0) :
    (machine Caller).run s [(t, .tryLockForWrite), (t, .step), (t, .step), (t, .step), (t, .step),
        (t, .step)] =
      some { s with isWriting := true, pc := Function.update s.pc t .writeHeld } := by
  obtain ⟨flag, count, lock, pc⟩ := s
  simp only at idle down free none
  subst down free none
  simp [machine, State.step, State.advance, goto, idle, RwLock.free, RwLock.writeLock,
    RwLock.unlock]

/-- The first `n` callers hold the block for reading. -/
def readersHold {m : Nat} (n : Nat) : State (Fin m) where
  readingReferenceCounts := u32 n
  pc t := if t.val < n then .readHeld else .idle

theorem reach_readersHold {m n : Nat} (le : n ≤ m) :
    (machine (Fin m)).Reach Machine.free (readersHold n) := by
  induction n with
  | zero => exact .start rfl
  | succ n ih =>
    have idle : (readersHold n : State (Fin m)).pc ⟨n, le⟩ = .idle := if_neg (lt_irrefl n)
    refine (ih (Nat.le_of_succ_le le)).of_run ((run_tryLockForRead idle rfl rfl).trans ?_)
    refine congrArg some (State.mk.injEq .. ▸ ⟨rfl, Nat.mod_add_mod .., rfl, funext fun t => ?_⟩)
    obtain rfl | ne := eq_or_ne t ⟨n, le⟩
    · simp [readersHold]
    · have : t.val ≠ n := fun same => ne (Fin.ext same)
      simp only [readersHold, Function.update_of_ne ne]
      congr 1
      exact propext (by omega)

/-- If the counter is zero again, one more caller gets the block for writing. -/
theorem reach_writer {n : Nat} (pos : 0 < n) (wraps : u32 n = 0) :
    ∃ s : State (Fin (n + 1)), (machine (Fin (n + 1))).Reach Machine.free s ∧
      s.pc 0 = .readHeld ∧ s.pc (Fin.last n) = .writeHeld := by
  have readers : (machine (Fin (n + 1))).Reach Machine.free (readersHold n) :=
    reach_readersHold (Nat.le_succ n)
  have idle : (readersHold n : State (Fin (n + 1))).pc (Fin.last n) = .idle := by
    simp [readersHold]
  have ne : (0 : Fin (n + 1)) ≠ Fin.last n := fun same => pos.ne (congrArg Fin.val same)
  refine ⟨_, readers.of_run (run_tryLockForWrite idle rfl rfl wraps), ?_, Function.update_self ..⟩
  simp [readersHold, ne, pos]

/-- After 2^32 readers a writer holds the block next to them. -/
theorem tryLockForWrite_beside_readers :
    ∃ s : State (Fin (4294967296 + 1)),
      (machine (Fin (4294967296 + 1))).Reach Machine.free s ∧ ¬Excludes s := by
  obtain ⟨s, reach, reader, writer⟩ := reach_writer (n := 4294967296) (by decide) (by decide)
  exact ⟨s, reach, fun fine => fine.readers _ _ writer reader⟩

end State

end Fuxi.Shm.Block
