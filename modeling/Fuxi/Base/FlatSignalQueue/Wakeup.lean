import Fuxi.Base.BoundedQueue.Wakeup
import Fuxi.Base.FlatSignalQueue
import Mathlib.Data.Fintype.Basic

/-!
# Wake-ups in `FlatSignalQueue`

Any number of threads run `TryPush`, `Push`, `TryPop` and `Pop`, and one step of a thread is
one atomic access to `available_size_` or one step of the ring. `TryPop` takes elements out
of the ring without waking anybody, so that a `Push` may sleep on a slot that is free. Apart
from that no wake-up is lost.
-/

namespace Fuxi.Base

open Lib

variable {α Tid : Type*}

namespace BoundedQueue

/-- Thread `t` sleeps on the slot until it has the version. -/
def State.SleepsFor (s : State Tid α) (t : Tid) (slot version : Nat) : Prop :=
  match s.pc t with
  | .wait j i (.asleep _) => j.slot s.q + i = slot ∧ j.expected s.q = version
  | _ => False

instance (s : State Tid α) (t : Tid) (slot version : Nat) :
    Decidable (s.SleepsFor t slot version) := by
  unfold State.SleepsFor
  split <;> infer_instance

instance (q : BoundedQueue α) (slot : Nat) (p : Pc α) : Decidable (p.Wakes q slot) :=
  decidable_of_iff
    ((match p with | .wakeAll j i => decide (j.slot q + i = slot) | _ => false) = true)
    (by unfold Pc.Wakes; cases p <;> simp)

end BoundedQueue

namespace FlatSignalQueue

/-! ## The threads -/

/-- What a thread does next; a thread in an operation of the ring has its place there. -/
inductive Place (α : Type*)
  | idle
  | pushAdd (v : α)
  | tryPush (v : α)
  | pushSub
  | push
  | popSub
  | tryPop
  | popAdd
  | pop
  | returned (ret : Bool)

/-- The queue and the threads. -/
structure Threads (Tid α : Type*) where
  queueCapacity : Nat
  availableSize : Int
  ring : BoundedQueue.State Tid α
  place : Tid → Place α

/-- A thread starts a call or goes on, or the ring lets it fail or wake up for no reason. -/
inductive ThreadMove (α : Type*)
  | tryPush (v : α)
  | push (v : α)
  | tryPop
  | pop
  | step
  | weakFail
  | spurious

/-- `try_push<true, true>`. -/
def tryPushCall (v : α) : BoundedQueue.Call α := ⟨.prod, none, true, false, true, fun _ => v⟩

/-- `push<true, true, true>`. -/
def pushCall (v : α) : BoundedQueue.Call α := ⟨.prod, none, false, true, true, fun _ => v⟩

/-- `try_pop_n<true, false>` of one element; `blank` is the value that the caller passes. -/
def tryPopCall (blank : α) : BoundedQueue.Call α :=
  ⟨.cons, some 1, true, false, false, fun _ => blank⟩

/-- `pop<true, true, true>`. -/
def popCall (blank : α) : BoundedQueue.Call α :=
  ⟨.cons, none, false, true, true, fun _ => blank⟩

namespace Threads

/-- The queue. -/
def queue (s : Threads Tid α) : FlatSignalQueue α :=
  ⟨s.queueCapacity, s.availableSize, s.ring.q⟩

/-- `available_size_.fetch_add` or `fetch_sub`. -/
def count (s : Threads Tid α) (d : Int) : Threads Tid α :=
  { s with availableSize := i32 (s.availableSize + d) }

variable [DecidableEq Tid]

def goto (s : Threads Tid α) (t : Tid) (p : Place α) : Threads Tid α :=
  { s with place := Function.update s.place t p }

/-- The ring makes a step. -/
def onRing (s : Threads Tid α) (m : Tid × BoundedQueue.Move α) : Option (Threads Tid α) :=
  (s.ring.step m).map fun r => { s with ring := r }

/-- A thread calls an operation of the ring. -/
def callRing (s : Threads Tid α) (t : Tid) (p : Place α) (c : BoundedQueue.Call α) :
    Option (Threads Tid α) :=
  (s.goto t p).onRing (t, .call c)

/-- A thread goes on in the ring, or has its result, the number of elements moved. -/
def inRing (s : Threads Tid α) (t : Tid) (done : Nat → Option (Threads Tid α)) :
    Option (Threads Tid α) :=
  match s.ring.pc t with
  | .returned _ moved => done moved
  | _ => s.onRing (t, .step)

/-- The next step of a thread. -/
def advance (blank : α) (s : Threads Tid α) (t : Tid) : Option (Threads Tid α) :=
  match s.place t with
  | .idle | .returned _ => none
  | .pushAdd v =>
    if s.queue.roomSeen then (s.count 1).callRing t (.tryPush v) (tryPushCall v)
    else some ((s.count 1).goto t .pushSub)
  | .tryPush v => s.inRing t fun moved =>
    if moved = 0 then s.callRing t (.tryPush v) (tryPushCall v)
    else some (s.goto t (.returned true))
  | .pushSub => some ((s.count (-1)).goto t (.returned false))
  | .push | .pop => s.inRing t fun _ => some (s.goto t (.returned true))
  | .popSub =>
    if s.availableSize < 1 then some ((s.count (-1)).goto t .popAdd)
    else (s.count (-1)).callRing t .tryPop (tryPopCall blank)
  | .tryPop => s.inRing t fun moved =>
    if moved = 0 then s.callRing t .tryPop (tryPopCall blank)
    else some (s.goto t (.returned true))
  | .popAdd => some ((s.count 1).goto t (.returned false))

/-- A thread that is in no call starts one. -/
def enter (blank : α) (s : Threads Tid α) (t : Tid) : ThreadMove α → Option (Threads Tid α)
  | .tryPush v => some (s.goto t (.pushAdd v))
  | .push v => s.callRing t .push (pushCall v)
  | .tryPop => some (s.goto t .popSub)
  | .pop => s.callRing t .pop (popCall blank)
  | .step | .weakFail | .spurious => none

def step (blank : α) (s : Threads Tid α) : Tid × ThreadMove α → Option (Threads Tid α)
  | (t, .step) => s.advance blank t
  | (t, .weakFail) => s.onRing (t, .weakFail)
  | (t, .spurious) => s.onRing (t, .spurious)
  | (t, m) =>
    match s.place t with
    | .idle | .returned _ => s.enter blank t m
    | _ => none

/-- Thread `t` makes `n` steps while all others rest. -/
def alone (blank : α) (s : Threads Tid α) (t : Tid) : Nat → Option (Threads Tid α)
  | 0 => some s
  | n + 1 => (s.advance blank t).bind fun s' => s'.alone blank t n

/-- Thread `u` has a `wake_all` on the slot ahead of it, to which it gets by its own steps. -/
def GoesToWake (blank : α) (s : Threads Tid α) (u : Tid) (slot : Nat) : Prop :=
  ∃ n s', s.alone blank u n = some s' ∧ (s'.ring.pc u).Wakes s'.ring.q slot

/-- Whoever sleeps on a slot that has the version he waits for will be woken by another
thread. -/
def NoLostWakeup (blank : α) (s : Threads Tid α) : Prop :=
  ∀ t slot, s.ring.SleepsFor t slot (s.ring.q.version slot) →
    ∃ u, u ≠ t ∧ s.GoesToWake blank u slot

end Threads

/-- No call is running on a queue that `Initialize` has prepared. -/
def opened (Tid : Type*) (blank : α) (num : Nat) : Threads Tid α :=
  ⟨num, 0, BoundedQueue.fresh Tid blank num, fun _ => .idle⟩

/-- The interleavings of any number of threads on a queue of capacity `num`. -/
def threadMachine (Tid : Type*) [DecidableEq Tid] (blank : α) (num : Nat) :
    Machine (Threads Tid α) (Tid × ThreadMove α) where
  start s := s = opened Tid blank num
  step := Threads.step blank

end FlatSignalQueue

/-! ## Sleepers in the ring -/

namespace BoundedQueue

/-- The calls of the signal queue: all but `TryPop` exchange the word of their only slot. -/
def Call.Signals (c : Call α) : Prop :=
  if c.wake then c.batch = none else c.batch = some 1

namespace State

variable {s s' : State Tid α} {u : Tid}

/-- If thread `u` is about to store a version without waking, nobody sleeps on the slot until
it has this version, unless the slot is being woken anyway. -/
def Unawaited (s : State Tid α) (u : Tid) : Prop :=
  match s.pc u with
  | .publish j i => j.call.wake = false → ∀ t,
      s.SleepsFor t (j.slot s.q + i) (u16 (j.expected s.q + 1)) →
        ∃ v, (s.pc v).Wakes s.q (j.slot s.q + i)
  | _ => True

instance [Fintype Tid] (s : State Tid α) (u : Tid) : Decidable (s.Unawaited u) := by
  unfold Unawaited
  split <;> infer_instance

/-- What every such step keeps: a sleeper's slot is marked and has another version than the
one he waits for, or somebody is about to wake him. -/
structure Roused (s : State Tid α) : Prop where
  ok : ∀ t, (s.pc t).Ok s.q
  woken : ∀ t j i word, s.pc t = .wait j i (.asleep word) →
    65535 < s.q.futex (j.slot s.q + i) ∧ u16 (s.q.futex (j.slot s.q + i)) ≠ j.expected s.q ∨
      ∃ v, (s.pc v).Wakes s.q (j.slot s.q + i)

variable [DecidableEq Tid]

/-- Who is about to wake the sleepers of a slot stays so until he has woken them. -/
theorem wakes_step {slot : Nat} (same : Same s.q s'.q) (effect : Effect s s' u) {v : Tid}
    (wakes : (s.pc v).Wakes s.q slot) :
    (s'.pc v).Wakes s'.q slot ∨ ∀ t word, t ≠ u → ¬s'.Asleep t slot word := by
  by_cases hv : v = u
  swap
  · exact Or.inl (wakes_others same effect hv wakes)
  subst hv
  obtain ⟨j, i, hp, rfl⟩ := wakes
  cases effect with
  | quiet p futex pc passes => exact (passes.rests j i hp).elim
  | mark k l here futex pc => rw [hp] at here; cases here
  | exchange k l here wakes futex pc => rw [hp] at here; cases here
  | store k l here late futex pc => rw [hp] at here; cases here
  | clear k l here futex pc => rw [hp] at here; cases here
  | wakeAll k l here futex pc =>
    right
    rw [hp] at here
    cases here
    rintro t word ht ⟨m, n, eq, at_⟩
    rw [pc, Function.update_of_ne ht] at eq
    refine (asleep_of_awaken eq).2 ?_
    rwa [same.slot_eq] at at_

/-- One step of a call of the signal queue. -/
theorem Roused.step (h : Roused s) (same : Same s.q s'.q) (effect : Effect s s' u)
    (signals : ∀ c, (s.pc u).call? = some c → c.Signals) (unawaited : s.Unawaited u) :
    Roused s' := by
  have ok := ok_step h.ok same effect
  refine ⟨ok, fun t j i word hp => ?_⟩
  rw [same.slot_eq, same.expected_eq]
  obtain ⟨ht, old⟩ | ⟨-, eq⟩ := asleep_before effect hp
  swap
  · -- The thread has just compared the word.
    left
    have := ok t
    rw [hp] at this
    rw [eq, ← same.expected_eq]
    exact this
  have asleep : s'.Asleep t (j.slot s.q + i) word := ⟨j, i, hp, by rw [same.slot_eq]⟩
  have stays : (∃ v, (s.pc v).Wakes s.q (j.slot s.q + i)) →
      ∃ v, (s'.pc v).Wakes s'.q (j.slot s.q + i) := by
    rintro ⟨v, wakes⟩
    exact ⟨v, (wakes_step same effect wakes).resolve_right fun none => none t word ht asleep⟩
  obtain ⟨marked, differs⟩ | wakes := h.woken t j i word old
  swap
  · exact Or.inr (stays wakes)
  cases effect with
  | quiet p futex pc passes => exact Or.inl (by rw [futex]; exact ⟨marked, differs⟩)
  | wakeAll k l here futex pc => exact Or.inl (by rw [futex]; exact ⟨marked, differs⟩)
  | mark k l here futex pc =>
    left
    rw [futex]
    by_cases at_ : j.slot s.q + i = k.slot s.q + l
    · rw [at_] at marked differs ⊢
      rw [Function.update_self]
      refine ⟨by omega, ?_⟩
      rwa [u16, Nat.add_mod_right]
    · rw [Function.update_of_ne at_]
      exact ⟨marked, differs⟩
  | exchange k l here wakes futex pc =>
    by_cases at_ : j.slot s.q + i = k.slot s.q + l
    · refine Or.inr ⟨u, ?_⟩
      rw [pc, Function.update_self, if_neg (by rw [← at_]; omega)]
      exact ⟨k, l, rfl, by rw [same.slot_eq, at_]⟩
    · left
      rw [futex, Function.update_of_ne at_]
      exact ⟨marked, differs⟩
  | clear k l here futex pc =>
    by_cases at_ : j.slot s.q + i = k.slot s.q + l
    · refine Or.inr ⟨u, ?_⟩
      rw [pc, Function.update_self]
      exact ⟨k, l, rfl, by rw [same.slot_eq, at_]⟩
    · left
      rw [futex, Function.update_of_ne at_]
      exact ⟨marked, differs⟩
  | store k l here late futex pc =>
    by_cases at_ : j.slot s.q + i = k.slot s.q + l
    swap
    · left
      rw [futex, Function.update_of_ne at_]
      exact ⟨marked, differs⟩
    by_cases awaited : j.expected s.q = u16 (k.expected s.q + 1)
    · -- Only `TryPop` stores a version in this way.
      right
      have silent : k.call.wake = false := by
        have := signals k.call (by rw [here]; rfl)
        unfold Call.Signals at this
        split_ifs at this with wake
        · exact absurd ⟨this, wake⟩ late
        · simpa using wake
      rw [Unawaited, here] at unawaited
      refine stays (at_ ▸ unawaited silent t ?_)
      rw [SleepsFor, old]
      exact ⟨at_, awaited⟩
    · left
      rw [futex, ← at_, Function.update_self]
      refine ⟨by omega, fun eq => awaited (eq ▸ ?_)⟩
      unfold u16
      omega

/-- The calls of the signal queue, with no `TryPop` that passes a sleeper over. -/
def signalling (s : State Tid α) (m : Tid × Move α) (_ : State Tid α) : Prop :=
  (∀ c, m.2 = .call c → c.Signals) ∧ s.Unawaited m.1

theorem roused_of_reach {zero : α} {minCapacity : Nat}
    (h : (machine Tid zero minCapacity).Reach signalling s) : s.Roused := by
  refine h.inv_reach ?_ ?_
  · rintro s rfl
    exact ⟨fun _ => trivial, fun t j i word hp => by cases hp⟩
  · rintro s ⟨u, m⟩ s' reach roused hs ⟨-, unawaited⟩
    obtain ⟨same, effect⟩ := step_effect hs
    refine roused.step same effect (fun c hc => ?_) unawaited
    exact obeys_of_reach (fun _ _ _ _ side => side.1 _ rfl) reach u c hc

end State

end BoundedQueue

namespace FlatSignalQueue

/-! ## No wake-up is lost unless `TryPop` passes a sleeper over -/

namespace Threads

variable [DecidableEq Tid] {blank : α} {s s' : Threads Tid α} {t : Tid}

/-- The ring rests or makes a step of thread `t`. -/
def OnRing (s : Threads Tid α) (t : Tid) (s' : Threads Tid α) : Prop :=
  s'.ring = s.ring ∨
    ∃ m, s.ring.step (t, m) = some s'.ring ∧ ∀ c, m = .call c → c.Signals

theorem onRing_of_move {m : BoundedQueue.Move α} (hs : s.onRing (t, m) = some s')
    (signals : ∀ c, m = .call c → c.Signals) : s.OnRing t s' := by
  obtain ⟨r, hr, rfl⟩ := Option.map_eq_some_iff.mp hs
  exact Or.inr ⟨m, hr, signals⟩

theorem onRing_of_call {p : Place α} {c : BoundedQueue.Call α} (signals : c.Signals)
    (hs : s.callRing t p c = some s') : s.OnRing t s' :=
  onRing_of_move (s := s.goto t p) hs fun _ eq => by cases eq; exact signals

theorem onRing_of_inRing {done : Nat → Option (Threads Tid α)}
    (signals : ∀ moved, done moved = some s' → s.OnRing t s') (hs : s.inRing t done = some s') :
    s.OnRing t s' := by
  unfold inRing at hs
  split at hs
  · exact signals _ hs
  · exact onRing_of_move hs fun _ => nofun

/-- A step of the signal queue is a step of the ring or leaves the ring alone. -/
theorem step_onRing {m : ThreadMove α} (hs : s.step blank (t, m) = some s') : s.OnRing t s' := by
  have tryPush : ∀ v : α, (tryPushCall v).Signals := fun _ => rfl
  have push : ∀ v : α, (pushCall v).Signals := fun _ => rfl
  have tryPop : (tryPopCall blank).Signals := rfl
  have pop : (popCall blank).Signals := rfl
  have enter : ∀ m : ThreadMove α,
      (match s.place t with | .idle | .returned _ => s.enter blank t m | _ => none) = some s' →
        s.OnRing t s' := by
    intro m hm
    have hm : s.enter blank t m = some s' := by
      split at hm
      · exact hm
      · exact hm
      · cases hm
    cases m with
    | tryPush v | tryPop => cases hm; exact Or.inl rfl
    | push v => exact onRing_of_call (push v) hm
    | pop => exact onRing_of_call pop hm
    | step | weakFail | spurious => cases hm
  cases m with
  | tryPush v | push v | tryPop | pop => exact enter _ hs
  | weakFail | spurious => exact onRing_of_move hs fun _ => nofun
  | step =>
    simp only [step, advance] at hs
    cases hp : s.place t with
    | idle | returned => simp only [hp] at hs; cases hs
    | pushSub | popAdd => simp only [hp] at hs; cases hs; exact Or.inl rfl
    | pushAdd v =>
      simp only [hp] at hs
      split_ifs at hs
      · exact onRing_of_call (s := s.count 1) (tryPush v) hs
      · cases hs
        exact Or.inl rfl
    | popSub =>
      simp only [hp] at hs
      split_ifs at hs
      · cases hs
        exact Or.inl rfl
      · exact onRing_of_call (s := s.count (-1)) tryPop hs
    | push | pop =>
      simp only [hp] at hs
      refine onRing_of_inRing (fun moved done => ?_) hs
      cases done
      exact Or.inl rfl
    | tryPush v =>
      simp only [hp] at hs
      refine onRing_of_inRing (fun moved done => ?_) hs
      split_ifs at done
      · exact onRing_of_call (tryPush v) done
      · cases done
        exact Or.inl rfl
    | tryPop =>
      simp only [hp] at hs
      refine onRing_of_inRing (fun moved done => ?_) hs
      split_ifs at done
      · exact onRing_of_call tryPop done
      · cases done
        exact Or.inl rfl

/-- A `TryPop` that is about to free a slot passes nobody over who sleeps there until the
slot is free, unless the slot is being woken anyway. -/
def passesNobody (s : Threads Tid α) (m : Tid × ThreadMove α) (_ : Threads Tid α) : Prop :=
  s.ring.Unawaited m.1

instance [Fintype Tid] (s s' : Threads Tid α) (m : Tid × ThreadMove α) :
    Decidable (passesNobody s m s') :=
  inferInstanceAs (Decidable (s.ring.Unawaited m.1))

/-- In runs where no `TryPop` passes a sleeper over, whoever sleeps on a slot that has the
version he waits for will be woken by another thread. -/
theorem noLostWakeup_of_reach {num : Nat}
    (h : (threadMachine Tid blank num).Reach passesNobody s) : s.NoLostWakeup blank := by
  have ring : (BoundedQueue.machine Tid blank num).Reach BoundedQueue.State.signalling s.ring := by
    refine h.project (f := Threads.ring) ?_ ?_
    · rintro s rfl
      rfl
    · rintro s ⟨u, m⟩ s' hs unawaited
      obtain rest | ⟨m', move, signals⟩ := step_onRing hs
      · exact Or.inl rest
      · exact Or.inr ⟨(u, m'), move, signals, unawaited⟩
  intro t slot sleeps
  unfold BoundedQueue.State.SleepsFor at sleeps
  split at sleeps
  · rename_i j i word hp
    obtain ⟨rfl, version⟩ := sleeps
    obtain ⟨-, differs⟩ | ⟨u, wakes⟩ :=
      (BoundedQueue.State.roused_of_reach ring).woken t j i word hp
    · exact (differs version.symm).elim
    · refine ⟨u, ?_, 0, s, rfl, wakes⟩
      rintro rfl
      obtain ⟨k, l, hk, -⟩ := wakes
      rw [hp] at hk
      cases hk
  · exact sleeps.elim

/-- A thread in no call wakes nobody. -/
theorem not_goesToWake {u : Tid} {slot : Nat} {ret : Bool} (out : s.place u = .returned ret)
    (rests : ¬(s.ring.pc u).Wakes s.ring.q slot) : ¬s.GoesToWake blank u slot := by
  rintro ⟨n, s', run, wakes⟩
  cases n with
  | zero => cases run; exact rests wakes
  | succ n => simp [alone, advance, out] at run

end Threads

/-- The only slot is full, a `Push` sleeps on it, and a `Pop` takes the element and is about
to wake the sleeper. Before that a `TryPop` frees the slot while nobody sleeps. -/
def popWakes : List (Bool × ThreadMove Nat) :=
  (false, .tryPush 6) :: List.replicate 7 (false, .step) ++
    (false, .tryPop) :: List.replicate 7 (false, .step) ++
    (false, .tryPush 7) :: List.replicate 7 (false, .step) ++
    (true, .push 8) :: List.replicate 4 (true, .step) ++
    (false, .pop) :: List.replicate 4 (false, .step)

theorem noLostWakeup_of_reach_popWakes :
    ∃ s, (threadMachine Bool 0 1).run (opened Bool 0 1) popWakes = some s ∧
      s.ring.SleepsFor true 0 (s.ring.q.version 0) ∧ s.NoLostWakeup 0 := by
  have along : (threadMachine Bool 0 1).Along Threads.passesNobody (opened Bool 0 1) popWakes := by
    decide +kernel
  have seen : ((threadMachine Bool 0 1).run (opened Bool 0 1) popWakes).map (fun s =>
      decide (s.ring.SleepsFor true 0 (s.ring.q.version 0))) = some true := by decide +kernel
  obtain ⟨s, run, reach, seen⟩ := Machine.Reach.of_along_seen (.start rfl) along seen
  simp only [decide_eq_true_eq] at seen
  exact ⟨s, run, seen, Threads.noLostWakeup_of_reach reach⟩

/-- The only slot is full, a `Push` sleeps on it, and a `TryPop` takes the element. -/
def tryPopPasses : List (Bool × ThreadMove Nat) :=
  (false, .tryPush 7) :: List.replicate 7 (false, .step) ++
    (true, .push 8) :: List.replicate 4 (true, .step) ++
    (false, .tryPop) :: List.replicate 7 (false, .step)

/-- The `Push` sleeps on the free slot, and nobody will wake it. -/
theorem tryPop_loses_wakeup :
    ∃ s, (threadMachine Bool (0 : Nat) 1).Reach Machine.free s ∧ ¬s.NoLostWakeup 0 := by
  have seen : ((threadMachine Bool 0 1).run (opened Bool 0 1) tryPopPasses).map (fun s =>
      (decide (s.ring.SleepsFor true 0 (s.ring.q.version 0)),
        decide ((s.ring.pc false).Wakes s.ring.q 0),
        match s.place false with | .returned ret => some ret | _ => none)) =
      some (true, false, some true) := by decide +kernel
  obtain ⟨s, run, seen⟩ := Option.map_eq_some_iff.mp seen
  simp only [Prod.mk.injEq, decide_eq_true_eq, decide_eq_false_iff_not] at seen
  obtain ⟨sleeps, rests, out⟩ := seen
  refine ⟨s, .of_run (.start rfl) run, fun kept => ?_⟩
  obtain ⟨u, hu, wakes⟩ := kept true 0 sleeps
  obtain rfl : u = false := by simpa using hu
  split at out
  · rename_i ret place
    exact Threads.not_goesToWake place rests wakes
  · cases out

end FlatSignalQueue

end Fuxi.Base
