import Fuxi.Common.Time
import Fuxi.Lib.Machine

/-!
# The timeout of `block_until_reach_expected_version_slow`

The loop marks the futex word, sleeps in `futex_wait` and looks at the word again. After a
wake-up that finds another version it refreshes the timeout: it subtracts the time since
the call began. But the timeout that it subtracts from is the one of the last round, which
an earlier refresh has reduced already, while the begin time stays the same. So the time
before the last refresh counts twice, and a call that wakes up often gives up too early.
-/

namespace Fuxi.Base.BoundedQueue

open Lib Common

/-- Where the call is: at the top of the loop with the last word it knows, in a
`futex_wait` since `start`, before the load that follows, before the refresh of the
timeout, or returned because of the version or of the time. -/
inductive BlockPc
  | top (word : Nat)
  | futexWait (word start : Nat)
  | load
  | refresh (word : Nat)
  | reached
  | gaveUp
  deriving DecidableEq

/-- The local state of a call; `now` is the time of its last event. -/
structure BlockState where
  timeout : Option Timespec
  beginTime : Nat
  now : Nat
  pc : BlockPc
  deriving DecidableEq

/-- What the environment answers: the word that a compare-exchange or a load finds, and the
times at which a `futex_wait` starts, returns early or times out and the clock is read. -/
inductive BlockMove
  | cas (actual : Nat)
  | wait (time : Nat)
  | wake (time : Nat)
  | timedOut (time : Nat)
  | load (word : Nat)
  | read (clock : Nat)

namespace BlockState

/-- `modified_timeout` and `timeout` after a refresh, or the break when no time is left. A
difference below the range of `int64_t` is not defined; here it is negative. -/
def refresh (s : BlockState) (t : Timespec) (word clock : Nat) : BlockState :=
  let waitDuration := i64 (durationFromTimespec t) - ((clock : Int) - s.beginTime)
  if waitDuration ≤ 0 then { s with now := clock, pc := .gaveUp }
  else { s with timeout := some (toTimespec waitDuration.toNat), now := clock, pc := .top word }

def step (expected : Nat) (s : BlockState) (m : BlockMove) : Option BlockState :=
  match s.pc, m with
  | .top word, .cas actual =>
    if word ≤ 65535 then
      if actual = word then some { s with pc := .top (word + 65536) }
      else if u16 actual = expected then some { s with pc := .reached }
      else some { s with pc := .top actual }
    else none
  | .top word, .wait time =>
    if 65535 < word ∧ s.now ≤ time then
      some { s with now := time, pc := .futexWait word time }
    else none
  | .futexWait _ start, .wake time =>
    -- a wake-up, a signal or another word: any moment until the timeout
    if s.now ≤ time ∧ ∀ t ∈ s.timeout, time ≤ start + t.nanoseconds then
      some { s with now := time, pc := .load }
    else none
  | .futexWait _ start, .timedOut time =>
    match s.timeout with
    | some t =>
      if start + t.nanoseconds ≤ time then some { s with now := time, pc := .gaveUp } else none
    | none => none
  | .load, .load word =>
    if u16 word = expected then some { s with pc := .reached }
    else some { s with pc := .refresh word }
  | .refresh word, .read clock =>
    match s.timeout with
    | some t => if s.now ≤ clock then some (s.refresh t word clock) else none
    | none => some { s with pc := .top word }
  | _, _ => none

/-- The call begins: the clock is read if there is a timeout. -/
def enter (timeout : Option Timespec) (clock word : Nat) : BlockState :=
  ⟨timeout, clock, clock, .top word⟩

end BlockState

def blockMachine (expected : Nat) (timeout : Option Timespec) (clock word : Nat) :
    Machine BlockState BlockMove where
  start s := s = .enter timeout clock word
  step := BlockState.step expected

/-! ## When the call may give up -/

/-- The call cannot give up before the time `deadline`: neither by the timeout of its next
or running `futex_wait`, nor has it done so. -/
def BlockState.Patient (s : BlockState) (deadline : Nat) : Prop :=
  match s.pc, s.timeout with
  | .top _, some t => deadline ≤ s.now + t.nanoseconds
  | .futexWait _ start, some t => deadline ≤ start + t.nanoseconds
  | .gaveUp, _ => deadline ≤ s.now
  | _, _ => True

/-- A refresh does not make the call give up before its timeout has passed. -/
def spares (timeout : Timespec) (s : BlockState) (m : BlockMove) (s' : BlockState) : Prop :=
  match m with
  | .read _ => s'.Patient (s.beginTime + timeout.nanoseconds)
  | _ => True

/-- No earlier refresh of the call has reduced the timeout, which fits in 63 bits, or the
timeout has passed. -/
def firstRefresh (timeout : Timespec) (s : BlockState) (m : BlockMove) (_ : BlockState) : Prop :=
  match m with
  | .read clock =>
    (s.timeout = some timeout ∧ timeout.nanoseconds < 9223372036854775808) ∨
      s.beginTime + timeout.nanoseconds ≤ clock
  | _ => True

instance (timeout : Timespec) (s s' : BlockState) (m : BlockMove) :
    Decidable (firstRefresh timeout s m s') :=
  match m with
  | .read _ => inferInstanceAs (Decidable (_ ∨ _))
  | .cas _ | .wait _ | .wake _ | .timedOut _ | .load _ => .isTrue trivial

/-- The timeout only goes down. -/
structure BlockInv (timeout : Timespec) (clock : Nat) (s : BlockState) : Prop where
  begun : s.beginTime = clock
  later : clock ≤ s.now
  has : ∃ t, s.timeout = some t ∧ t.nanoseconds ≤ timeout.nanoseconds
  started : ∀ word start, s.pc = .futexWait word start → clock ≤ start

namespace BlockInv

variable {timeout : Timespec} {clock word expected : Nat} {s s' : BlockState} {m : BlockMove}

theorem enter (timeout : Timespec) (clock word : Nat) :
    BlockInv timeout clock (.enter (some timeout) clock word) :=
  ⟨rfl, le_rfl, ⟨timeout, rfl, le_rfl⟩, fun _ _ => nofun⟩

/-- A refresh spares the timeout exactly if it is the first that reduces it, or if nothing is
left to spare. -/
theorem refresh_iff (h : BlockInv timeout clock s) {t : Timespec} (has : s.timeout = some t)
    {now : Nat} (later : s.now ≤ now) :
    BlockInv timeout clock (s.refresh t word now) ∧
      ((s.refresh t word now).Patient (s.beginTime + timeout.nanoseconds) ↔
        (s.timeout = some timeout ∧ timeout.nanoseconds < 9223372036854775808) ∨
          s.beginTime + timeout.nanoseconds ≤ now) := by
  have begun := h.begun
  have since := h.later
  obtain ⟨t', has', le⟩ := h.has
  cases has.symm.trans has'
  have full : s.timeout = some timeout ↔ t.nanoseconds = timeout.nanoseconds := by
    rw [has, Option.some.injEq]
    exact ⟨fun eq => by rw [eq], Timespec.nanoseconds_inj⟩
  have duration := durationFromTimespec_eq t
  unfold BlockState.refresh
  simp only
  split_ifs with passed
  · refine ⟨⟨begun, since.trans later, ⟨t, has, le⟩, fun _ _ => nofun⟩, ?_⟩
    rw [full]
    simp only [BlockState.Patient]
    unfold i64 u64 at *
    omega
  · have fits : (i64 (durationFromTimespec t) - ((now : Int) - s.beginTime)).toNat <
        18446744073709551616 := by
      unfold i64 at *
      omega
    have left : (toTimespec (i64 (durationFromTimespec t) -
        ((now : Int) - s.beginTime)).toNat).nanoseconds = _ := nanoseconds_toTimespec fits
    refine ⟨⟨begun, since.trans later, ⟨_, rfl, ?_⟩, fun _ _ => nofun⟩, ?_⟩
    · rw [left]
      unfold i64 u64 at *
      omega
    · rw [full]
      simp only [BlockState.Patient, left]
      unfold i64 u64 at *
      omega

/-- One step keeps the invariant, and spares the timeout exactly if it is no later refresh. -/
theorem step (h : BlockInv timeout clock s) (hs : s.step expected m = some s') :
    BlockInv timeout clock s' ∧ (spares timeout s m s' ↔ firstRefresh timeout s m s') := by
  have goto : ∀ pc, (∀ word start, pc ≠ .futexWait word start) →
      BlockInv timeout clock { s with pc := pc } := fun pc awake =>
    ⟨h.begun, h.later, h.has, fun word start eq => absurd eq (awake word start)⟩
  have goAt : ∀ pc now, clock ≤ now → (∀ word start, pc = .futexWait word start → start = now) →
      BlockInv timeout clock { s with now := now, pc := pc } := fun pc now le starts =>
    ⟨h.begun, le, h.has, fun word start eq => starts word start eq ▸ le⟩
  unfold BlockState.step at hs
  split at hs
  · refine ⟨?_, Iff.rfl⟩
    split_ifs at hs <;> cases hs <;> exact goto _ fun _ _ => nofun
  · refine ⟨?_, Iff.rfl⟩
    split_ifs at hs with le
    cases hs
    exact goAt _ _ (h.later.trans le.2) fun _ _ eq => by cases eq; rfl
  · refine ⟨?_, Iff.rfl⟩
    split_ifs at hs with le
    cases hs
    exact goAt _ _ (h.later.trans le.1) fun _ _ => nofun
  · rename_i start time hp
    refine ⟨?_, Iff.rfl⟩
    split at hs
    · split_ifs at hs with le
      cases hs
      exact goAt _ _ ((h.started _ _ hp).trans (by omega)) fun _ _ => nofun
    · cases hs
  · refine ⟨?_, Iff.rfl⟩
    split_ifs at hs <;> cases hs <;> exact goto _ fun _ _ => nofun
  · rename_i word now _
    obtain ⟨t, has, le⟩ := h.has
    simp only [has] at hs
    split_ifs at hs with later
    obtain rfl := Option.some.inj hs
    exact h.refresh_iff has later
  · cases hs

/-- A call that spares its timeout goes on being patient. -/
theorem patient_step (h : BlockInv timeout clock s) (hs : s.step expected m = some s')
    (spare : spares timeout s m s') (patient : s.Patient (clock + timeout.nanoseconds)) :
    s'.Patient (clock + timeout.nanoseconds) := by
  obtain ⟨t, has, -⟩ := h.has
  rw [← h.begun] at patient ⊢
  unfold BlockState.step at hs
  split at hs
  · rename_i hp
    simp only [BlockState.Patient, hp, has] at patient
    split_ifs at hs <;> cases hs <;> simp only [BlockState.Patient, has] <;>
      exact patient
  · rename_i hp
    simp only [BlockState.Patient, hp, has] at patient
    split_ifs at hs with le
    cases hs
    simp only [BlockState.Patient, has]
    omega
  · split_ifs at hs
    cases hs
    trivial
  · rename_i hp
    simp only [BlockState.Patient, hp, has] at patient
    simp only [has] at hs
    split_ifs at hs with le
    cases hs
    exact patient.trans le
  · split_ifs at hs <;> cases hs <;> trivial
  · exact spare
  · cases hs

end BlockInv

/-- Whatever wakes a call up, its refreshes all keep it from giving up before its timeout has
passed if and only if each of them is the first that takes time off or comes after the
timeout; and then a call that has given up has waited for the whole timeout. -/
theorem spares_iff (expected : Nat) (timeout : Timespec) (clock word : Nat)
    {moves : List BlockMove} {s : BlockState}
    (run : (blockMachine expected (some timeout) clock word).run
      (.enter (some timeout) clock word) moves = some s) :
    ((blockMachine expected (some timeout) clock word).Along (spares timeout)
        (.enter (some timeout) clock word) moves ↔
      (blockMachine expected (some timeout) clock word).Along (firstRefresh timeout)
        (.enter (some timeout) clock word) moves) ∧
      ((blockMachine expected (some timeout) clock word).Along (firstRefresh timeout)
        (.enter (some timeout) clock word) moves → s.pc = .gaveUp →
          clock + timeout.nanoseconds ≤ s.now) := by
  have spared := (Machine.Along.of_run run).congr (BlockInv.enter timeout clock word)
    fun s m s' inv hs _ => inv.step hs
  refine ⟨spared, fun first gaveUp => ?_⟩
  have patient := (spared.mpr first).inv
    (I := fun s => BlockInv timeout clock s ∧ s.Patient (clock + timeout.nanoseconds))
    run ⟨.enter .., Nat.le_refl _⟩ fun s m s' inv hs spare =>
      ⟨(inv.1.step hs).1, inv.1.patient_step hs spare inv.2⟩
  simpa only [BlockState.Patient, gaveUp] using patient.2

/-- A timeout of ten seconds; the call wakes up after four. -/
def tenSeconds : Timespec := ⟨10, 0, by decide, by decide⟩

theorem spares_iff_once : ∃ s, (blockMachine 1 (some tenSeconds) 0 0).run
    (.enter (some tenSeconds) 0 0) [.cas 0, .wait 0, .wake 4000000000, .load 65536,
      .read 4000000000, .wait 4000000000, .timedOut 10000000000] = some s ∧
    s.pc = .gaveUp ∧ 0 + tenSeconds.nanoseconds ≤ s.now := by
  have first : (blockMachine 1 (some tenSeconds) 0 0).Along (firstRefresh tenSeconds)
      (.enter (some tenSeconds) 0 0) [.cas 0, .wait 0, .wake 4000000000, .load 65536,
        .read 4000000000, .wait 4000000000, .timedOut 10000000000] := by
    decide +kernel
  obtain ⟨s, run, gaveUp⟩ := Option.map_eq_some_iff.mp
    (show ((blockMachine 1 (some tenSeconds) 0 0).run (.enter (some tenSeconds) 0 0)
      [.cas 0, .wait 0, .wake 4000000000, .load 65536, .read 4000000000, .wait 4000000000,
        .timedOut 10000000000]).map BlockState.pc = some .gaveUp by decide +kernel)
  exact ⟨s, run, gaveUp, (spares_iff 1 tenSeconds 0 0 run).2 first gaveUp⟩

/-- The call wakes up after four and after seven seconds, finds another version both times,
and gives up after seven of its ten seconds. -/
theorem block_gives_up_early : ∃ s, (blockMachine 1 (some tenSeconds) 0 0).run
    (.enter (some tenSeconds) 0 0) [.cas 0, .wait 0, .wake 4000000000, .load 65536,
      .read 4000000000, .wait 4000000000, .wake 7000000000, .load 65536, .read 7000000000] =
        some s ∧ s.pc = .gaveUp ∧ ¬0 + tenSeconds.nanoseconds ≤ s.now := by
  refine ⟨⟨some ⟨6, 0, by decide, by decide⟩, 0, 7000000000, .gaveUp⟩, ?_, rfl, ?_⟩
  · decide +kernel
  · decide

end Fuxi.Base.BoundedQueue
