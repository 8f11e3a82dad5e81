import Fuxi.Base.IdAllocator.Enumeration
import Fuxi.Base.ThreadLocal

/-!
# The threads that an enumeration reaches

`for_each` of an `EnumerableThreadLocal` stops at the length of the storage, which it keeps in a
`uint16_t`: a storage of 512 blocks looks empty. `for_each_alive` goes through the ids of the live
threads. All instances of a type share these ids, so that there may be ids above the length of
the storage; only the constant version looks at the length, again in a `uint16_t`.
-/

namespace Fuxi.Base

open Lib ConcurrentVector

variable {Tid V : Type*}

namespace EnumerableThreadLocal

/-- The segments that `for_each` hands to its callback; both versions do the same. -/
def forEach (s : EnumerableThreadLocal V) (threadEnd : Nat) : List Segment :=
  Snapshot.forEach blocks 0 (s.visited threadEnd)

/-- `for_each_alive`; `alive` lists what `ThreadId::for_each` hands to its callback. -/
def forEachAlive (_ : EnumerableThreadLocal V) (alive : List (Nat × Nat)) : List Segment :=
  alive.flatMap fun r => Snapshot.forEach blocks r.1 r.2

/-- The constant `for_each_alive`. -/
def forEachAliveConst (s : EnumerableThreadLocal V) (alive : List (Nat × Nat)) : List Segment :=
  let size := u16 s.size
  alive.flatMap fun r => Snapshot.forEach blocks (min r.1 size) (min r.2 size)

/-- An instance, with the ids of its type of threads. `idBlocks` counts the blocks of the ids'
`_free_next_value`, and `used` lists the ids of the threads that have called `local()`. -/
structure State (Tid V : Type*) where
  threadIds : ThreadIds Tid
  idBlocks : Nat
  storage : EnumerableThreadLocal V
  used : List Nat

/-- A thread calls `local()` of another instance, of this one, or ends. -/
inductive Move
  | elsewhere
  | here
  | exit

namespace State

/-- The allocator of the ids. -/
def allocator (s : State Tid V) : IdAllocator.Allocator := ⟨s.threadIds.ids, s.idBlocks⟩

/-- The ids of the live threads. -/
def live (s : State Tid V) : List Nat := s.threadIds.threads.map s.threadIds.threadId

/-- `ThreadId::for_each`. -/
def alive (s : State Tid V) : List (Nat × Nat) := s.allocator.forEach .uint16

variable [DecidableEq Tid]

/-- `ThreadId::current_thread_id`. -/
def current (s : State Tid V) (t : Tid) : State Tid V :=
  { s with
    threadIds := (s.threadIds.currentThreadId t).2
    idBlocks := if t ∈ s.threadIds.threads then s.idBlocks
      else (s.allocator.allocate .uint16).2.blockNum }

def step (s : State Tid V) : Tid × Move → Option (State Tid V)
  | (t, .elsewhere) => some (s.current t)
  | (t, .here) =>
    let id := (s.threadIds.currentThreadId t).1
    some { s.current t with storage := s.storage.ensure id, used := id :: s.used }
  | (t, .exit) => some { s with threadIds := s.threadIds.exit t }

end State

/-- An instance that has not been used, and no thread ids. -/
def State.unused (blank : Nat → Nat) (threadId : Tid → Nat) (element : Nat → V) : State Tid V :=
  ⟨⟨.unused .uint16 blank, [], threadId⟩, 0, ⟨0, element⟩, []⟩

/-- The runs of any number of threads, one call after the other. -/
def machine (Tid V : Type*) [DecidableEq Tid] : Machine (State Tid V) (Tid × Move) where
  start s := ∃ blank threadId element, s = .unused blank threadId element
  step := State.step

/-- At most 65534 ids have been given out. -/
def Documented (_ : State Tid V) (_ : Tid × Move) (s : State Tid V) : Prop :=
  s.threadIds.threadEnd ≤ 65534

instance (s : State Tid V) (m : Tid × Move) (s' : State Tid V) : Decidable (Documented s m s') :=
  inferInstanceAs (Decidable (_ ≤ _))

/-! ## What is reached -/

/-- The ids of live threads are marked in the allocator, and the storage is as long as the largest
id needs that has been used. -/
structure State.Inv (s : State Tid V) : Prop where
  served : s.allocator.Served .uint16 s.live
  used : ∀ i ∈ s.used, i < s.threadIds.threadEnd ∧ i < s.storage.blockNum * 128
  longest : s.storage.blockNum = 0 ∨ ∃ i ∈ s.used, s.storage.blockNum = i / 128 + 1

namespace State.Inv

variable {s : State Tid V}

theorem unused (blank : Nat → Nat) (threadId : Tid → Nat) (element : Nat → V) :
    (State.unused blank threadId element).Inv where
  served := .start blank
  used := by simp [State.unused]
  longest := Or.inl rfl

variable [DecidableEq Tid] {t : Tid}

theorem current (h : s.Inv) (few : (s.current t).threadIds.threadEnd ≤ 65534) :
    (s.current t).Inv ∧ (s.threadIds.currentThreadId t).1 < (s.current t).threadIds.threadEnd := by
  unfold State.current ThreadIds.currentThreadId at few ⊢
  split_ifs at few ⊢ with known
  · exact ⟨h, h.served.serves.lt (List.mem_map_of_mem known)⟩
  · obtain ⟨served, le⟩ := h.served.allocate few
    have live := @IdAllocator.Ids.Serves.map_cons_update _ _ _ s.threadIds.threadId _ known
    refine ⟨⟨?_, fun i mem => ?_, h.longest⟩, served.serves.lt List.mem_cons_self⟩
    · simp only [State.live, live]
      exact served
    · exact ⟨(h.used i mem).1.trans_le le, (h.used i mem).2⟩

theorem here (h : s.Inv) (few : (s.current t).threadIds.threadEnd ≤ 65534) :
    { s.current t with
      storage := s.storage.ensure (s.threadIds.currentThreadId t).1
      used := (s.threadIds.currentThreadId t).1 :: s.used }.Inv := by
  obtain ⟨inv, lt⟩ := h.current few
  generalize (s.threadIds.currentThreadId t).1 = id at lt ⊢
  have grown : (s.storage.ensure id).blockNum = max s.storage.blockNum (id / 128 + 1) :=
    congrArg (max s.storage.blockNum) (expectBlockNum_ensure (by omega))
  refine ⟨inv.served, fun i mem => ?_, ?_⟩
  · simp only [grown]
    obtain rfl | mem := List.mem_cons.mp mem
    · exact ⟨lt, by omega⟩
    · have := (inv.used i mem).2
      refine ⟨(inv.used i mem).1, ?_⟩
      simp only [State.current] at this
      omega
  · simp only [grown]
    obtain le | le := Nat.le_total s.storage.blockNum (id / 128 + 1)
    · exact Or.inr ⟨id, List.mem_cons_self, max_eq_right le⟩
    · rw [max_eq_left le]
      refine h.longest.imp_right fun ⟨i, mem, eq⟩ => ⟨i, List.mem_cons_of_mem _ mem, eq⟩

theorem exit (h : s.Inv) : { s with threadIds := s.threadIds.exit t }.Inv := by
  unfold ThreadIds.exit
  split_ifs with known
  · have served := h.served.deallocate (List.mem_map_of_mem known)
    exact ⟨served.perm (IdAllocator.Ids.Serves.map_erase_perm known), h.used, h.longest⟩
  · exact h

omit [DecidableEq Tid] in
/-- Fewer than 512 blocks, or an id from `65408` on has been used. -/
theorem blockNum_lt_iff (h : s.Inv) (few : s.threadIds.threadEnd ≤ 65534) :
    s.storage.blockNum ≤ 512 ∧ (s.storage.blockNum < 512 ↔ ∀ i ∈ s.used, i < 65408) := by
  obtain none | ⟨i, mem, longest⟩ := h.longest
  · refine ⟨by omega, fun _ i mem => ?_, fun _ => by omega⟩
    have := (h.used i mem).2
    omega
  · have := (h.used i mem).1
    refine ⟨by omega, fun short j mem' => ?_, fun below => ?_⟩
    · have := (h.used j mem').2
      omega
    · have := below i mem
      omega

end State.Inv

theorem inv_of_reach [DecidableEq Tid] {s : State Tid V}
    (h : (machine Tid V).Reach Documented s) : s.Inv ∧ s.threadIds.threadEnd ≤ 65534 := by
  refine h.inv (P := fun s => s.Inv ∧ s.threadIds.threadEnd ≤ 65534) ?_ ?_
  · rintro s ⟨blank, threadId, element, rfl⟩
    exact ⟨.unused blank threadId element, Nat.zero_le _⟩
  · rintro s ⟨t, m⟩ s' ⟨inv, -⟩ hs few
    refine ⟨?_, few⟩
    cases m with
    | elsewhere =>
      cases hs
      exact (inv.current few).1
    | here =>
      cases hs
      exact inv.here few
    | exit =>
      cases hs
      exact inv.exit

/-! ## All threads that have ever used an instance -/

/-- No element is visited twice, and none outside the blocks of the table. -/
structure Sound (blockNum : Nat) (segments : List Segment) : Prop where
  once : (segments.flatMap (Segment.elements blocks)).Nodup
  inBlock : ∀ r ∈ segments, r.block < blockNum ∧ r.last ≤ 128

/-- `for_each` visits the element of every id that has been used once, and nothing outside the
storage. -/
structure State.Covered (s : State Tid V) : Prop where
  sound : Sound s.storage.blockNum (s.storage.forEach s.threadIds.threadEnd)
  visits : ∀ i ∈ s.used,
    i ∈ (s.storage.forEach s.threadIds.threadEnd).flatMap (Segment.elements blocks)

/-- In a range of the storage all is visited. -/
theorem forEach_sound {blockNum first last : Nat} (le : first ≤ last) (small : last ≤ 65536)
    (covered : last ≤ blockNum * 128) :
    Sound blockNum (Snapshot.forEach blocks first last) ∧
      ∀ i, i ∈ (Snapshot.forEach blocks first last).flatMap (Segment.elements blocks) ↔
        first ≤ i ∧ i < last := by
  have few : last / blocks.blockSize < 4294967296 := (Nat.div_le_self _ _).trans_lt (by omega)
  have parts := Snapshot.forEach_partition (m := blocks) le few
  refine ⟨⟨?_, fun r mem => ⟨parts.block_lt covered mem, (parts.inBlock r mem).2⟩⟩, fun i => ?_⟩
  · rw [parts.elements]
    exact List.nodup_range'
  · rw [parts.elements, List.mem_range'_1]
    omega

theorem State.Inv.covered_iff {s : State Tid V} (h : s.Inv) (few : s.threadIds.threadEnd ≤ 65534) :
    s.Covered ↔ ∀ i ∈ s.used, i < 65408 := by
  obtain ⟨most, short⟩ := h.blockNum_lt_iff few
  have visited : s.storage.visited s.threadIds.threadEnd =
      min s.threadIds.threadEnd (s.storage.blockNum * 128 % 65536) := by
    rw [visited, size_eq, u16]
  obtain ⟨sound, all⟩ := @forEach_sound s.storage.blockNum 0
    (s.storage.visited s.threadIds.threadEnd) (Nat.zero_le _) (by omega) (by omega)
  constructor
  · intro covered i mem
    have := (all i).mp (covered.visits i mem)
    have := (h.used i mem).2
    omega
  · intro below
    refine ⟨sound, fun i mem => (all i).mpr ⟨Nat.zero_le i, ?_⟩⟩
    have := short.mpr below
    have := h.used i mem
    omega

section Runs

variable [DecidableEq Tid]

/-- In every run with at most 65534 ids, `for_each` covers the ids that have been used exactly if
they are below `65408`. -/
theorem covered_iff_of_reach {s : State Tid V} (h : (machine Tid V).Reach Documented s) :
    s.Covered ↔ ∀ i ∈ s.used, i < 65408 := by
  obtain ⟨inv, few⟩ := inv_of_reach h
  exact inv.covered_iff few

/-- Two threads use an instance and one of them ends. -/
def twoThreads : List (Bool × Move) :=
  [(true, .elsewhere), (false, .here), (true, .here), (false, .exit)]

/-- A start of a run. -/
def State.zero (Tid : Type*) : State Tid Unit := .unused (fun _ => 0) (fun _ => 0) fun _ => ()

theorem start_zero : (machine Tid Unit).start (.zero Tid) := ⟨_, _, _, rfl⟩

theorem covered_iff_of_reach_twoThreads : ∃ s, (machine Bool Unit).run (.zero Bool) twoThreads =
    some s ∧ s.used = [0, 1] ∧ s.Covered := by
  have along : (machine Bool Unit).Along Documented (.zero Bool) twoThreads := by decide +kernel
  have seen : ((machine Bool Unit).run (.zero Bool) twoThreads).map State.used = some [0, 1] := by
    decide +kernel
  obtain ⟨s, run, reach, seen⟩ := Machine.Reach.of_along_seen (.start start_zero) along seen
  refine ⟨s, run, seen, (covered_iff_of_reach reach).mpr ?_⟩
  rw [seen]
  decide

/-- So many threads have an id, and none has used the instance. -/
structure Waiting (k : Nat) (s : State Nat Unit) : Prop where
  threadEnd : s.threadIds.threadEnd = k
  taken : s.threadIds.ids.freeHead.value = 65535
  before : ∀ t ∈ s.threadIds.threads, t < k
  unused : s.storage.blockNum = 0 ∧ s.used = []

/-- The next thread gets the next id. -/
theorem Waiting.current {k : Nat} {s : State Nat Unit} (h : Waiting k s) (few : k < 65534) :
    (s.threadIds.currentThreadId k).1 = k ∧ Waiting (k + 1) (s.current k) := by
  have new : k ∉ s.threadIds.threads := fun mem => Nat.lt_irrefl k (h.before k mem)
  have allocate : s.threadIds.ids.allocate .uint16 = (⟨s.threadIds.ids.nextValue, 0⟩, _) :=
    if_neg (not_not.mpr h.taken)
  have next : s.threadIds.ids.nextValue = k := h.threadEnd
  have wrap : (k + 1) % IdAllocator.IdType.uint16.size = k + 1 :=
    Nat.mod_eq_of_lt (show k + 1 < 65536 by omega)
  simp only [State.current, ThreadIds.currentThreadId, if_neg new, allocate, next, wrap]
  refine ⟨trivial, ⟨rfl, h.taken, fun t mem => ?_, h.unused⟩⟩
  obtain rfl | mem := List.mem_cons.mp mem
  · exact Nat.lt_succ_self t
  · exact (h.before t mem).trans (Nat.lt_succ_self k)

theorem exists_waiting {k : Nat} (le : k ≤ 65534) :
    ∃ s, (machine Nat Unit).Reach Documented s ∧ Waiting k s := by
  induction k with
  | zero =>
    exact ⟨.zero Nat, .start start_zero, rfl, rfl, by simp [State.zero, State.unused], rfl, rfl⟩
  | succ k ih =>
    obtain ⟨s, reach, waiting⟩ := ih (by omega)
    obtain ⟨-, next⟩ := waiting.current (by omega)
    refine ⟨_, ?_, next⟩
    exact reach.step (i := (k, .elsewhere)) rfl (next.threadEnd.trans_le le)

/-- The thread with the id `65408` makes the storage 512 blocks long, and `for_each` visits
nothing. -/
theorem forEach_visits_none : ∃ s, (machine Nat Unit).Reach Documented s ∧ s.used = [65408] ∧
    s.storage.forEach s.threadIds.threadEnd = [] ∧ ¬s.Covered := by
  obtain ⟨s, reach, waiting⟩ := exists_waiting (k := 65408) (by decide)
  obtain ⟨id, next⟩ := waiting.current (by decide)
  have blockNum : (s.storage.ensure 65408).blockNum = 512 := by
    rw [ensure, waiting.unused.1]
    rfl
  have zero : u16 (512 * 128) = 0 := rfl
  have none : (s.storage.ensure 65408).forEach (s.current 65408).threadIds.threadEnd = [] := by
    rw [forEach, visited, size_eq, blockNum, zero, Nat.min_zero]
    rfl
  refine ⟨{ s.current 65408 with storage := s.storage.ensure 65408, used := 65408 :: s.used }, ?_,
    congrArg (List.cons 65408) waiting.unused.2, none, fun covered => ?_⟩
  · refine reach.step (i := (65408, .here)) ?_ (next.threadEnd.trans_le (by decide))
    simp only [machine, State.step, id]
  · have visits := covered.visits 65408 List.mem_cons_self
    simp only [none] at visits
    cases visits

end Runs

/-! ## The threads that are alive -/

/-- The segments visit the elements of the live threads that lie in the storage, and nothing
outside the storage. -/
structure State.VisitsLive (s : State Tid V) (segments : List Segment) : Prop where
  sound : Sound s.storage.blockNum segments
  visits : ∀ i, i ∈ segments.flatMap (Segment.elements blocks) ↔ i ∈ s.live ∧ i < s.storage.size

/-- Ranges of ids that are cut off at `n`. -/
theorem flatMap_elements {alive : List (Nat × Nat)} {S : Set Nat} (h : Enumerates alive S)
    (small : ∀ r ∈ alive, r.2 ≤ 65534) (n : Nat) :
    (alive.flatMap fun r => Snapshot.forEach blocks (min r.1 n) (min r.2 n)).flatMap
      (Segment.elements blocks) = numbersBelow n alive := by
  rw [List.flatMap_assoc, numbersBelow]
  refine List.flatMap_congr fun r mem => ?_
  have le : min r.1 n ≤ min r.2 n := min_le_min_right n (h.nonempty r mem).le
  have := small r mem
  have few : min r.2 n / blocks.blockSize < 4294967296 :=
    (Nat.div_le_self _ _).trans_lt (by omega)
  exact (Snapshot.forEach_partition (m := blocks) le few).elements

/-- They visit the ids below `n`, in the storage if it reaches as far. -/
theorem sound_flatMap {alive : List (Nat × Nat)} {S : Set Nat} (h : Enumerates alive S)
    (small : ∀ r ∈ alive, r.2 ≤ 65534) {n blockNum : Nat}
    (covered : ∀ r ∈ alive, min r.2 n ≤ blockNum * 128) :
    Sound blockNum (alive.flatMap fun r => Snapshot.forEach blocks (min r.1 n) (min r.2 n)) := by
  refine ⟨?_, fun q mem => ?_⟩
  · rw [flatMap_elements h small]
    exact h.nodup_numbersBelow n
  · obtain ⟨r, mem, inside⟩ := List.mem_flatMap.mp mem
    have le : min r.1 n ≤ min r.2 n := min_le_min_right n (h.nonempty r mem).le
    have := small r mem
    exact (forEach_sound le (by omega) (covered r mem)).1.inBlock q inside

namespace State.Inv

variable {s : State Tid V}

theorem enumerates (h : s.Inv) : Enumerates s.alive {v | v ∈ s.live} := h.served.marks.forEach

theorem live_lt (h : s.Inv) {i : Nat} (mem : i ∈ s.live) : i < s.threadIds.threadEnd :=
  h.served.serves.lt mem

/-- The last id of a range is the one of a live thread. -/
theorem range_le (h : s.Inv) {r : Nat × Nat} (mem : r ∈ s.alive) {n : Nat}
    (below : ∀ i ∈ s.live, i < n) : r.2 ≤ n := by
  have lt := h.enumerates.nonempty r mem
  have last : r.2 - 1 ∈ s.live := (h.enumerates.mem_iff _).mpr ⟨r, mem, by
    show r.1 ≤ r.2 - 1 ∧ r.2 - 1 < r.2
    omega⟩
  have := below _ last
  omega

theorem alive_le (h : s.Inv) (few : s.threadIds.threadEnd ≤ 65534) :
    ∀ r ∈ s.alive, r.2 ≤ 65534 := fun _ mem =>
  h.range_le mem fun _ live => (h.live_lt live).trans_le few

/-- The version that is not constant visits all live threads. -/
theorem visitsLive_iff (h : s.Inv) (few : s.threadIds.threadEnd ≤ 65534) :
    s.VisitsLive (s.storage.forEachAlive s.alive) ↔ ∀ i ∈ s.live, i < s.storage.size := by
  have small := h.alive_le few
  have cut : s.storage.forEachAlive s.alive =
      s.alive.flatMap fun r => Snapshot.forEach blocks (min r.1 65534) (min r.2 65534) := by
    refine List.flatMap_congr fun r mem => ?_
    have lt := h.enumerates.nonempty r mem
    have le := small r mem
    rw [min_eq_left le, min_eq_left (lt.le.trans le)]
  have all : ∀ i, i ∈ (s.storage.forEachAlive s.alive).flatMap (Segment.elements blocks) ↔
      i ∈ s.live := fun i => by
    rw [cut, flatMap_elements h.enumerates small, h.enumerates.mem_numbersBelow]
    exact and_iff_left_of_imp fun live => (h.live_lt live).trans_le few
  constructor
  · exact fun visits i live => ((visits.visits i).mp ((all i).mpr live)).2
  · refine fun below => ⟨?_, fun i => ?_⟩
    · rw [cut]
      refine sound_flatMap h.enumerates small fun r mem => (min_le_left _ _).trans ?_
      exact h.range_le mem (s.storage.size_eq ▸ below)
    · rw [all i]
      exact (and_iff_left_of_imp (below i)).symm

/-- The constant version visits no thread if the storage has 512 blocks. -/
theorem visitsLive_const_iff (h : s.Inv) (few : s.threadIds.threadEnd ≤ 65534) :
    s.VisitsLive (s.storage.forEachAliveConst s.alive) ↔
      s.live = [] ∨ s.storage.size < 65536 := by
  have small := h.alive_le few
  have size := s.storage.size_eq
  have le : u16 s.storage.size ≤ s.storage.blockNum * 128 := size ▸ Nat.mod_le _ _
  have sound := sound_flatMap h.enumerates small (n := u16 s.storage.size) fun r _ =>
    (min_le_right r.2 _).trans le
  have all : ∀ i, i ∈ (s.storage.forEachAliveConst s.alive).flatMap (Segment.elements blocks) ↔
      i ∈ s.live ∧ i < u16 s.storage.size := fun i => by
    rw [forEachAliveConst, flatMap_elements h.enumerates small, h.enumerates.mem_numbersBelow]
    rfl
  have most := (h.blockNum_lt_iff few).1
  obtain short | long := Nat.lt_or_ge s.storage.size 65536
  · have fits : u16 s.storage.size = s.storage.size := Nat.mod_eq_of_lt short
    rw [fits] at all
    exact iff_of_true ⟨sound, all⟩ (Or.inr short)
  · have full : s.storage.size = 65536 := by omega
    have zero : u16 s.storage.size = 0 := congrArg u16 full
    rw [zero] at all
    constructor
    · refine fun visits => Or.inl (List.eq_nil_iff_forall_not_mem.mpr fun i live => ?_)
      have := h.live_lt live
      have := (all i).mp ((visits.visits i).mpr ⟨live, by omega⟩)
      omega
    · rintro (none | short)
      · refine ⟨sound, fun i => ?_⟩
        rw [all, none]
        simp
      · omega

end State.Inv

section AliveRuns

variable [DecidableEq Tid]

/-- In every run with at most 65534 ids, both versions of `for_each_alive` visit the live threads
in the storage exactly if no live thread has an id above the storage, and none is alive once it
has 512 blocks. -/
theorem visitsLive_iff_of_reach {s : State Tid V} (h : (machine Tid V).Reach Documented s) :
    s.VisitsLive (s.storage.forEachAlive s.alive) ∧
        s.VisitsLive (s.storage.forEachAliveConst s.alive) ↔
      (∀ i ∈ s.live, i < s.storage.size) ∧ (s.live = [] ∨ s.storage.size < 65536) := by
  obtain ⟨inv, few⟩ := inv_of_reach h
  exact and_congr (inv.visitsLive_iff few) (inv.visitsLive_const_iff few)

/-- Three threads use an instance, and the second one ends. -/
def threeThreads : List (Nat × Move) := [(0, .here), (1, .here), (2, .here), (1, .exit)]

theorem visitsLive_iff_of_reach_threeThreads : ∃ s,
    (machine Nat Unit).run (.zero Nat) threeThreads = some s ∧
      s.storage.forEachAlive s.alive = [⟨0, 0, 1⟩, ⟨0, 2, 3⟩] ∧
      s.VisitsLive (s.storage.forEachAlive s.alive) ∧
        s.VisitsLive (s.storage.forEachAliveConst s.alive) := by
  have along : (machine Nat Unit).Along Documented (.zero Nat) threeThreads := by decide +kernel
  have seen : ((machine Nat Unit).run (.zero Nat) threeThreads).map (fun s =>
      (s.storage.forEachAlive s.alive, s.live, s.storage.size)) =
        some ([⟨0, 0, 1⟩, ⟨0, 2, 3⟩], [2, 0], 128) := by decide +kernel
  obtain ⟨s, run, reach, seen⟩ := Machine.Reach.of_along_seen (.start start_zero) along seen
  simp only [Prod.mk.injEq] at seen
  obtain ⟨segments, live, size⟩ := seen
  refine ⟨s, run, segments, (visitsLive_iff_of_reach reach).mpr ?_⟩
  rw [live, size]
  decide

/-- A thread has used another instance only: the version that is not constant reads the pointer
of a block where there is none. -/
theorem forEachAlive_outside : ∃ s, (machine Nat Unit).run (.zero Nat) [(0, .elsewhere)] = some s ∧
    (machine Nat Unit).Reach Documented s ∧ s.storage.blockNum = 0 ∧
      s.storage.forEachAlive s.alive = [⟨0, 0, 1⟩] ∧ s.storage.forEachAliveConst s.alive = [] ∧
        ¬s.VisitsLive (s.storage.forEachAlive s.alive) := by
  have along : (machine Nat Unit).Along Documented (.zero Nat) [(0, .elsewhere)] := by
    decide +kernel
  have seen : ((machine Nat Unit).run (.zero Nat) [(0, .elsewhere)]).map (fun s =>
      (s.storage.blockNum, s.storage.forEachAlive s.alive,
        s.storage.forEachAliveConst s.alive)) = some (0, [⟨0, 0, 1⟩], []) := by decide +kernel
  obtain ⟨s, run, reach, seen⟩ := Machine.Reach.of_along_seen (.start start_zero) along seen
  simp only [Prod.mk.injEq] at seen
  obtain ⟨blockNum, segments, none⟩ := seen
  refine ⟨s, run, reach, blockNum, segments, none, fun visits => ?_⟩
  have inside := (visits.sound.inBlock ⟨0, 0, 1⟩ (by rw [segments]; simp)).1
  omega

end AliveRuns

end EnumerableThreadLocal

end Fuxi.Base
