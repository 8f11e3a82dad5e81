import Mathlib.Algebra.Group.Prod
import Mathlib.Data.BitVec
import Fuxi.Base.ThreadLocal.Isolated
import Fuxi.Lib.Collect

/-!
# Counters that are read while threads add

`operator<<` of `ConcurrentAdder` and of `ConcurrentSummer` adds to the value of its own thread
with a plain load and a plain store, and `value` reads the values of all threads one after the
other. Several counters share a storage: each has its place in the cache lines. One step of a
thread is one access to a value or one call of the storage or of the thread ids; the steps of
different threads interleave in any order. The value of a `ConcurrentSummer` is a pair that is
loaded and stored as one.
-/

namespace Fuxi.Base.Counter

open Lib

variable {Tid V : Type*}

/-- What a thread does next: `operator<<` from `threadId` to `store`, `value` from `snapshot` to
`scan`, with the place of the counter. The numbers `began` and `ended` belong to the history: how
many additions to the counter had been made when `value` was called and when it returned. -/
inductive Pc (V : Type*)
  | idle
  | threadId (place : ℕ) (delta : V)
  | ensure (index place : ℕ) (delta : V)
  | load (index place : ℕ) (delta : V)
  | store (index place : ℕ) (delta value : V)
  | snapshot (place began : ℕ)
  | threadEnd (place began blockNum : ℕ)
  | scan (place began stop i : ℕ) (sum : V)
  | returned (place : ℕ) (sum : V) (began ended : ℕ)
  deriving DecidableEq

/-- The counters of one storage. The history `log` lists the additions to each counter in the
order of their stores, each with the thread id of its value. -/
structure State (Tid V : Type*) where
  threadIds : ThreadIds Tid
  storage : EnumerableThreadLocal (CacheLine V)
  pc : Tid → Pc V
  log : ℕ → List (ℕ × V)

/-- A thread calls `operator<<` or `value`, goes on, or ends. -/
inductive Move (V : Type*)
  | add (place : ℕ) (delta : V)
  | value (place : ℕ)
  | step
  | exit

/-- The thread is in no call. -/
def Pc.outside : Pc V → Bool
  | .idle | .returned _ _ _ _ => true
  | _ => false

namespace State

variable [DecidableEq Tid]

def goto (s : State Tid V) (t : Tid) (p : Pc V) : State Tid V :=
  { s with pc := Function.update s.pc t p }

/-- Store one value of a cache line. -/
def put (s : State Tid V) (index place : ℕ) (value : V) : EnumerableThreadLocal (CacheLine V) :=
  { s.storage with
    element := Function.update s.storage.element index
      (Function.update (s.storage.element index) place value) }

variable [AddCommMonoid V]

/-- The next step of a thread. -/
def advance (s : State Tid V) (t : Tid) : Option (State Tid V) :=
  match s.pc t with
  | .idle | .returned _ _ _ _ => none
  | .threadId place delta =>
    let current := s.threadIds.currentThreadId t
    some { s.goto t (.ensure current.1 place delta) with threadIds := current.2 }
  | .ensure index place delta =>
    some { s.goto t (.load index place delta) with storage := s.storage.ensure index }
  | .load index place delta =>
    some (s.goto t (.store index place delta (s.storage.element index place + delta)))
  | .store index place delta value =>
    some { s.goto t .idle with
      storage := s.put index place value
      log := Function.update s.log place (s.log place ++ [(index, delta)]) }
  | .snapshot place began => some (s.goto t (.threadEnd place began s.storage.blockNum))
  | .threadEnd place began blockNum =>
    let stop := { s.storage with blockNum := blockNum }.visited s.threadIds.threadEnd
    some (s.goto t (.scan place began stop 0 0))
  | .scan place began stop i sum =>
    if i < stop then
      some (s.goto t (.scan place began stop (i + 1) (sum + s.storage.element i place)))
    else some (s.goto t (.returned place sum began (s.log place).length))

def step (s : State Tid V) : Tid × Move V → Option (State Tid V)
  | (t, .add place delta) =>
    if (s.pc t).outside then some (s.goto t (.threadId place delta)) else none
  | (t, .value place) =>
    if (s.pc t).outside then some (s.goto t (.snapshot place (s.log place).length)) else none
  | (t, .step) => s.advance t
  | (t, .exit) =>
    if (s.pc t).outside then some { s with threadIds := s.threadIds.exit t } else none

end State

/-- A storage that has not been used. -/
def unused [Zero V] (Tid : Type*) (blank : ℕ → ℕ) (threadId : Tid → ℕ) : State Tid V where
  threadIds := ⟨.unused .uint16 blank, [], threadId⟩
  storage := ⟨0, fun _ _ => 0⟩
  pc := fun _ => .idle
  log := fun _ => []

/-- The interleavings of any number of threads on the counters of one storage. -/
def machine (Tid V : Type*) [DecidableEq Tid] [AddCommMonoid V] :
    Machine (State Tid V) (Tid × Move V) where
  start s := ∃ blank threadId, s = unused Tid blank threadId
  step := State.step

/-- Fewer than `2 ^ 15` thread ids are in use. -/
def Few (_ : State Tid V) (_ : Tid × Move V) (s : State Tid V) : Prop :=
  s.threadIds.threadEnd < 2 ^ 15

instance (s : State Tid V) (m : Tid × Move V) (s' : State Tid V) : Decidable (Few s m s') :=
  inferInstanceAs (Decidable (_ < _))

/-- The values of `ConcurrentAdder`. -/
abbrev AdderValue := BitVec 64

/-- `ConcurrentSummer::Summary`, with the addition of `_mm_add_epi64`. -/
abbrev Summary := BitVec 64 × BitVec 64

/-- `ConcurrentSummer::operator<<(ssize_t)`. -/
def Summary.one (value : BitVec 64) : Summary := (value, 1)

/-! ## The invariant -/

section Invariant

variable [AddCommMonoid V]

/-- The thread has this thread id. -/
def Owns (s : State Tid V) (t : Tid) (index : ℕ) : Prop :=
  t ∈ s.threadIds.threads ∧ s.threadIds.threadId t = index

/-- What a thread knows at each point of its call. -/
def Local (s : State Tid V) (t : Tid) : Pc V → Prop
  | .idle | .threadId _ _ => True
  | .ensure index _ _ => Owns s t index
  | .load index _ _ => Owns s t index ∧ index < s.storage.blockNum * 128
  | .store index place delta value =>
    Owns s t index ∧ index < s.storage.blockNum * 128 ∧
      value = s.storage.element index place + delta
  | .snapshot place began => began ≤ (s.log place).length
  | .threadEnd place began blockNum =>
    began ≤ (s.log place).length ∧ blockNum ≤ 256 ∧
      ∀ e ∈ (s.log place).take began, e.1 < blockNum * 128
  | .scan place began stop i sum =>
    began ≤ (s.log place).length ∧ i ≤ stop ∧ stop ≤ 2 ^ 15 ∧
      (∀ e ∈ (s.log place).take began, e.1 < stop) ∧
        Collected i ((s.log place).take began) (s.log place) sum
  | .returned place sum began ended =>
    began ≤ ended ∧ ended ≤ (s.log place).length ∧
      Collected (2 ^ 15) ((s.log place).take began) ((s.log place).take ended) sum

/-- A value holds what was added through it, and what was added lies in the storage. -/
structure Inv (s : State Tid V) : Prop where
  distinct : s.threadIds.Distinct
  few : s.threadIds.threadEnd < 2 ^ 15
  short : s.storage.blockNum ≤ 256
  cells : ∀ i place, s.storage.element i place = (through (s.log place) i).sum
  logged : ∀ place, ∀ e ∈ s.log place,
    e.1 < s.threadIds.threadEnd ∧ e.1 < s.storage.blockNum * 128
  locals : ∀ t, Local s t (s.pc t)

/-- What a step of one thread leaves to the others. -/
structure Frame (t : Tid) (s s' : State Tid V) : Prop where
  pc : ∀ u ≠ t, s'.pc u = s.pc u
  owns : ∀ u ≠ t, ∀ index, Owns s u index → Owns s' u index
  grown : s.storage.blockNum ≤ s'.storage.blockNum
  own : ∀ u ≠ t, ∀ index place, Owns s u index →
    s'.storage.element index place = s.storage.element index place
  log : ∀ place, s.log place <+: s'.log place

variable {s s' : State Tid V} {t u : Tid}

theorem Local.frame {p : Pc V} (h : Local s u p) (frame : Frame t s s') (ne : u ≠ t) :
    Local s' u p := by
  cases p with
  | idle | threadId => trivial
  | ensure index place delta => exact frame.owns u ne index h
  | load index place delta =>
    exact ⟨frame.owns u ne index h.1, h.2.trans_le (Nat.mul_le_mul_right _ frame.grown)⟩
  | store index place delta value =>
    obtain ⟨own, inside, value⟩ := h
    refine ⟨frame.owns u ne index own, inside.trans_le (Nat.mul_le_mul_right _ frame.grown), ?_⟩
    rw [value, frame.own u ne index place own]
  | snapshot place began => exact le_trans h (frame.log place).length_le
  | threadEnd place began blockNum =>
    obtain ⟨le, few, inside⟩ := h
    obtain ⟨more, eq⟩ := frame.log place
    refine ⟨le.trans (frame.log place).length_le, few, ?_⟩
    rwa [← eq, List.take_append_of_le_length le]
  | scan place began stop i sum =>
    obtain ⟨le, below, few, inside, counted⟩ := h
    obtain ⟨more, eq⟩ := frame.log place
    refine ⟨le.trans (frame.log place).length_le, below, few, ?_, ?_⟩
    · rwa [← eq, List.take_append_of_le_length le]
    · rw [← eq, List.take_append_of_le_length le]
      exact counted.grow more
  | returned place sum began ended =>
    obtain ⟨le, le', counted⟩ := h
    obtain ⟨more, eq⟩ := frame.log place
    refine ⟨le, le'.trans (frame.log place).length_le, ?_⟩
    rwa [← eq, List.take_append_of_le_length (le.trans le'), List.take_append_of_le_length le']

/-- The others keep what they know, so a step is about the thread that makes it. -/
theorem Inv.locals_frame (h : Inv s) (frame : Frame t s s') {p : Pc V} (pc : s'.pc t = p)
    (own : Local s' t p) (u : Tid) : Local s' u (s'.pc u) := by
  by_cases e : u = t
  · subst e
    rw [pc]
    exact own
  · rw [frame.pc u e]
    exact (h.locals u).frame frame e

theorem Inv.owns_lt (h : Inv s) {index : ℕ} (own : Owns s t index) :
    index < s.threadIds.threadEnd := by
  obtain ⟨known, rfl⟩ := own
  exact h.distinct.lt (List.mem_map_of_mem known)

/-- Two threads have different thread ids. -/
theorem Inv.owns_inj (h : Inv s) {index : ℕ} (own : Owns s t index) (own' : Owns s u index) :
    t = u :=
  List.inj_on_of_nodup_map h.distinct.nodup own.1 own'.1 (own.2.trans own'.2.symm)

/-- The steps of `value` only read. -/
theorem Inv.threadEnd (h : Inv s) {place began blockNum : ℕ}
    (known : Local s t (.threadEnd place began blockNum)) :
    Local s t (.scan place began
      ({ s.storage with blockNum := blockNum }.visited s.threadIds.threadEnd) 0 0) := by
  obtain ⟨le, short, inside⟩ := known
  have visited := EnumerableThreadLocal.visited_eq
    (s := { s.storage with blockNum := blockNum }) short s.threadIds.threadEnd
  refine ⟨le, Nat.zero_le _, ?_, fun e mem => ?_, .zero⟩
  · rw [visited]
    exact (min_le_left _ _).trans h.few.le
  · rw [visited]
    exact lt_min (h.logged place e (List.mem_of_mem_take mem)).1 (inside e mem)

theorem Inv.scan_next (h : Inv s) {place began stop i : ℕ} {sum : V}
    (known : Local s t (.scan place began stop i sum)) (lt : i < stop) :
    Local s t (.scan place began stop (i + 1) (sum + s.storage.element i place)) := by
  obtain ⟨le, -, few, inside, counted⟩ := known
  refine ⟨le, lt, few, inside, ?_⟩
  rw [h.cells]
  exact counted.next (List.take_prefix _ _)

theorem Local.scan_end {place began stop i : ℕ} {sum : V}
    (known : Local s t (.scan place began stop i sum)) (ge : ¬ i < stop) :
    Local s t (.returned place sum began (s.log place).length) := by
  obtain ⟨le, below, few, inside, counted⟩ := known
  obtain rfl : i = stop := by omega
  refine ⟨le, le_rfl, ?_⟩
  rw [List.take_length]
  exact counted.extend few inside

theorem inv_unused (blank : ℕ → ℕ) (threadId : Tid → ℕ) :
    Inv (unused Tid blank threadId : State Tid V) where
  distinct := .start blank
  few := show 0 < 2 ^ 15 by decide
  short := Nat.zero_le _
  cells _ _ := rfl
  logged _ := nofun
  locals _ := trivial

variable [DecidableEq Tid]

/-- A step that changes nothing but where the thread is. -/
theorem Inv.goto (h : Inv s) {p : Pc V} (own : Local (s.goto t p) t p) : Inv (s.goto t p) := by
  have frame : Frame t s (s.goto t p) :=
    ⟨fun u ne => Function.update_of_ne ne _ _, fun _ _ _ h => h, le_rfl, fun _ _ _ _ _ => rfl,
      fun _ => List.prefix_rfl⟩
  exact ⟨h.distinct, h.few, h.short, h.cells, h.logged,
    h.locals_frame frame (Function.update_self ..) own⟩

/-- The thread gets its id, or gives it back. -/
theorem Inv.withThreads (h : Inv s) {threadIds : ThreadIds Tid} {p : Pc V}
    (distinct : threadIds.Distinct) (few : threadIds.threadEnd < 2 ^ 15)
    (le : s.threadIds.threadEnd ≤ threadIds.threadEnd)
    (others : ∀ u ≠ t, u ∈ s.threadIds.threads →
      u ∈ threadIds.threads ∧ threadIds.threadId u = s.threadIds.threadId u)
    (own : Local { s.goto t p with threadIds } t p) : Inv { s.goto t p with threadIds } := by
  have frame : Frame t s { s.goto t p with threadIds } := by
    refine ⟨fun u ne => Function.update_of_ne ne _ _, ?_, le_rfl, fun _ _ _ _ _ => rfl,
      fun _ => List.prefix_rfl⟩
    rintro u ne index ⟨known, rfl⟩
    exact others u ne known
  refine ⟨distinct, few, h.short, h.cells, fun place e mem => ?_,
    h.locals_frame frame (Function.update_self ..) own⟩
  exact ⟨(h.logged place e mem).1.trans_le le, (h.logged place e mem).2⟩

theorem Inv.threadId (h : Inv s) (place : ℕ) (delta : V)
    (few : (s.threadIds.currentThreadId t).2.threadEnd < 2 ^ 15) :
    Inv { s.goto t (.ensure (s.threadIds.currentThreadId t).1 place delta) with
      threadIds := (s.threadIds.currentThreadId t).2 } := by
  obtain ⟨distinct, -, le⟩ := h.distinct.current h.few (t := t)
  refine h.withThreads distinct few le (fun u ne known => ?_) ?_
  · unfold ThreadIds.currentThreadId
    split_ifs
    · exact ⟨known, rfl⟩
    · exact ⟨List.mem_cons_of_mem _ known, Function.update_of_ne ne _ _⟩
  · change t ∈ (s.threadIds.currentThreadId t).2.threads ∧
      (s.threadIds.currentThreadId t).2.threadId t = (s.threadIds.currentThreadId t).1
    unfold ThreadIds.currentThreadId
    split_ifs with known
    · exact ⟨known, rfl⟩
    · exact ⟨List.mem_cons_self, Function.update_self ..⟩

/-- A thread may end where it is in no call. -/
theorem Inv.exit (h : Inv s) (outside : (s.pc t).outside = true) :
    Inv { s with threadIds := s.threadIds.exit t } := by
  obtain ⟨distinct, same⟩ := h.distinct.exit (t := t)
  have rests : s.goto t (s.pc t) = s := by
    simp [State.goto]
  have others : ∀ u ≠ t, u ∈ s.threadIds.threads →
      u ∈ (s.threadIds.exit t).threads ∧ (s.threadIds.exit t).threadId u = s.threadIds.threadId u := by
    intro u ne known
    unfold ThreadIds.exit
    split_ifs
    · exact ⟨(List.mem_erase_of_ne ne).mpr known, rfl⟩
    · exact ⟨known, rfl⟩
  have own : Local { s.goto t (s.pc t) with threadIds := s.threadIds.exit t } t (s.pc t) := by
    have known := h.locals t
    cases pc : s.pc t with
    | idle => trivial
    | returned place sum began ended =>
      rw [pc] at known
      exact known
    | _ => simp [pc, Pc.outside] at outside
  have moved := h.withThreads distinct (same ▸ h.few) same.ge others own
  rwa [rests] at moved

theorem Inv.ensure (h : Inv s) {index place : ℕ} {delta : V} (own : Owns s t index) :
    Inv { s.goto t (.load index place delta) with storage := s.storage.ensure index } := by
  obtain ⟨grown, short, inside⟩ :=
    EnumerableThreadLocal.ensure_spec ((h.owns_lt own).trans h.few) h.short
  have frame : Frame t s
      { s.goto t (.load index place delta) with storage := s.storage.ensure index } :=
    ⟨fun u ne => Function.update_of_ne ne _ _, fun _ _ _ h => h, grown, fun _ _ _ _ _ => rfl,
      fun _ => List.prefix_rfl⟩
  refine ⟨h.distinct, h.few, short, h.cells, fun place e mem => ?_,
    h.locals_frame frame (Function.update_self ..) ⟨own, inside⟩⟩
  obtain ⟨below, within⟩ := h.logged place e mem
  exact ⟨below, within.trans_le (Nat.mul_le_mul_right _ grown)⟩

/-- Nobody else has changed the value since the load. -/
theorem Inv.store (h : Inv s) {index place : ℕ} {delta : V} (own : Owns s t index)
    (inside : index < s.storage.blockNum * 128) :
    Inv { s.goto t .idle with
      storage := s.put index place (s.storage.element index place + delta)
      log := Function.update s.log place (s.log place ++ [(index, delta)]) } := by
  set s' : State Tid V := { s.goto t .idle with
      storage := s.put index place (s.storage.element index place + delta)
      log := Function.update s.log place (s.log place ++ [(index, delta)]) }
  have log : ∀ q, s'.log q = if q = place then s.log q ++ [(index, delta)] else s.log q := by
    intro q
    by_cases e : q = place <;> simp [s', e]
  have element : ∀ i q, s'.storage.element i q =
      if i = index ∧ q = place then s.storage.element i q + delta else s.storage.element i q := by
    intro i q
    by_cases e : i = index
    · by_cases e' : q = place <;> simp [s', State.put, e, e']
    · simp [s', State.put, e]
  have frame : Frame t s s' := by
    refine ⟨fun u ne => Function.update_of_ne ne _ _, fun _ _ _ h => h, le_rfl, ?_, fun q => ?_⟩
    · intro u ne i q owns
      rw [element, if_neg]
      rintro ⟨rfl, -⟩
      exact ne (h.owns_inj owns own)
    · rw [log]
      split_ifs
      · exact List.prefix_append _ _
      · exact List.prefix_rfl
  refine ⟨h.distinct, h.few, h.short, fun i q => ?_, fun q e mem => ?_,
    h.locals_frame frame (Function.update_self ..) trivial⟩
  · rw [element, log]
    by_cases there : q = place
    · by_cases here : i = index
      · subst here there
        rw [if_pos ⟨rfl, rfl⟩, if_pos rfl, h.cells, through_append]
        simp [through]
      · have other : through [(index, delta)] i = [] := by
          simpa [through] using Ne.symm here
        rw [if_neg (by simp [here]), if_pos there, through_append, other, List.append_nil]
        exact h.cells i q
    · rw [if_neg (by simp [there]), if_neg there]
      exact h.cells i q
  · rw [log] at mem
    split_ifs at mem with there
    · obtain old | new := List.mem_append.mp mem
      · exact h.logged q e old
      · rw [List.mem_singleton.mp new]
        exact ⟨h.owns_lt own, inside⟩
    · exact h.logged q e mem

/-- Every step keeps the invariant. -/
theorem Inv.step (h : Inv s) {m : Tid × Move V} (hs : s.step m = some s')
    (few : s'.threadIds.threadEnd < 2 ^ 15) : Inv s' := by
  obtain ⟨t, m⟩ := m
  cases m with
  | add place delta =>
    obtain ⟨-, ⟨⟩⟩ := Option.ite_none_right_eq_some.mp hs
    exact h.goto trivial
  | value place =>
    obtain ⟨-, ⟨⟩⟩ := Option.ite_none_right_eq_some.mp hs
    exact h.goto le_rfl
  | exit =>
    obtain ⟨outside, ⟨⟩⟩ := Option.ite_none_right_eq_some.mp hs
    exact h.exit outside
  | step =>
    have known := h.locals t
    simp only [State.step, State.advance] at hs
    cases pc : s.pc t with
    | idle | returned => simp [pc] at hs
    | threadId place delta =>
      simp only [pc, Option.some.injEq] at hs
      subst hs
      exact h.threadId place delta few
    | ensure index place delta =>
      simp only [pc, Option.some.injEq] at hs known
      subst hs
      exact h.ensure known
    | load index place delta =>
      simp only [pc, Option.some.injEq] at hs known
      subst hs
      exact h.goto ⟨known.1, known.2, rfl⟩
    | store index place delta value =>
      simp only [pc, Option.some.injEq] at hs known
      obtain ⟨own, inside, rfl⟩ := known
      subst hs
      exact h.store own inside
    | snapshot place began =>
      simp only [pc, Option.some.injEq] at hs known
      subst hs
      exact h.goto ⟨known, h.short, fun e mem => (h.logged place e (List.mem_of_mem_take mem)).2⟩
    | threadEnd place began blockNum =>
      simp only [pc, Option.some.injEq] at hs known
      subst hs
      exact h.goto (h.threadEnd known)
    | scan place began stop i sum =>
      simp only [pc] at hs known
      split_ifs at hs with lt
      · cases hs
        exact h.goto (h.scan_next known lt)
      · cases hs
        exact h.goto (known.scan_end lt)

theorem reach_inv (h : (machine Tid V).Reach Few s) : Inv s := by
  refine h.inv ?_ fun _ _ _ inv hs few => inv.step hs few
  rintro _ ⟨blank, threadId, rfl⟩
  exact inv_unused blank threadId

end Invariant

/-- What `value` returns counts of every thread id a prefix of the additions that were made with
it: all that were made before the call, none that was made after it, and each as a whole. Without
additions meanwhile it is the sum of all additions. -/
theorem value_counts [DecidableEq Tid] [AddCommMonoid V] {s : State Tid V}
    (h : (machine Tid V).Reach Few s) {t : Tid} {place began ended : ℕ} {sum : V}
    (returned : s.pc t = .returned place sum began ended) :
    began ≤ ended ∧ ended ≤ (s.log place).length ∧ (∀ e ∈ s.log place, e.1 < 2 ^ 15) ∧
      Collected (2 ^ 15) ((s.log place).take began) ((s.log place).take ended) sum ∧
        (began = ended → sum = (((s.log place).take ended).map Prod.snd).sum) := by
  have inv := reach_inv h
  have known := inv.locals t
  rw [returned] at known
  obtain ⟨le, le', counted⟩ := known
  have few : ∀ e ∈ s.log place, e.1 < 2 ^ 15 := fun e mem =>
    (inv.logged place e mem).1.trans inv.few
  refine ⟨le, le', few, counted, ?_⟩
  rintro rfl
  exact counted.sum_eq fun e mem => few e (List.mem_of_mem_take mem)

/-- While the second thread reads, the third adds 7 with a thread id of its own. -/
def lateMoves : List (ℕ × Move Summary) :=
  [(0, .add 3 (.one 5)), (0, .step), (0, .step), (0, .step), (0, .step), (1, .value 3), (1, .step),
    (2, .add 3 (.one 7)), (1, .step), (2, .step), (2, .step), (2, .step), (2, .step), (1, .step),
    (1, .step)]

/-- Then 7 is not counted, neither in the sum nor in the number. -/
theorem value_counts_late : ∃ s : State ℕ Summary, s.pc 1 = .returned 3 (5, 1) 1 2 ∧
    Collected (2 ^ 15) ((s.log 3).take 1) ((s.log 3).take 2) (5, 1) := by
  let start : State ℕ Summary := unused ℕ (fun _ => 0) fun _ => 0
  have along : (machine ℕ Summary).Along Few start lateMoves := by decide
  have seen : ((machine ℕ Summary).run start lateMoves).map (fun s => s.pc 1) =
      some (.returned 3 (5, 1) 1 2) := by decide
  have reach : (machine ℕ Summary).Reach Few start := .start ⟨_, _, rfl⟩
  obtain ⟨s, -, reach, seen⟩ := reach.of_along_seen along seen
  exact ⟨s, seen, (value_counts reach seen).2.2.2.1⟩

end Fuxi.Base.Counter
