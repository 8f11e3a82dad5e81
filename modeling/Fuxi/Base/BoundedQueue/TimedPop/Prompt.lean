import Fuxi.Base.BoundedQueue.TimedPop

/-!
# When a timed batch pop waits

A timed batch pop is prompt if its wait is over exactly when as many elements are published
as it asks for, so that it never sleeps on enough elements and then takes all it asked for.
The code waits for one element more, and this module says in which runs nobody can tell.
-/

namespace Fuxi.Base.BoundedQueue

open Lib

variable {α Tid : Type*}

/-! ## The consumer among the sleepers -/

/-- The wait of a timed pop is that of a single pop for the ticket `index`. -/
def Job.timed (zero : α) (index : Nat) : Job α :=
  ⟨⟨.cons, none, false, true, true, fun _ => zero⟩, index, 1, 0, 0⟩

variable [DecidableEq Tid]

/-- The threads with the consumer among those that wait. -/
def TimedState.threads (zero : α) (consumer : Tid) (s : TimedState Tid α) : State Tid α :=
  match s.timed with
  | .wait _ index _ w => s.shared.goto consumer (.wait (Job.timed zero index) 0 w)
  | _ => s.shared

section Threads

variable {zero : α} {consumer : Tid} {s s' : TimedState Tid α}

theorem threads_wait {num index : Nat} {wake : Bool} {w : Wait}
    (at_ : s.timed = .wait num index wake w) :
    s.threads zero consumer = s.shared.goto consumer (.wait (Job.timed zero index) 0 w) := by
  simp only [TimedState.threads, at_]

theorem threads_q : (s.threads zero consumer).q = s.shared.q := by
  unfold TimedState.threads
  split <;> rfl

theorem threads_other {t : Tid} (ht : t ≠ consumer) :
    (s.threads zero consumer).pc t = s.shared.pc t := by
  unfold TimedState.threads
  split
  · simp only [State.goto, Function.update_of_ne ht]
  · rfl

omit [DecidableEq Tid] in
theorem Pc.Rests.not_covers {q : BoundedQueue α} {p : Pc α} (h : p.Rests) (slot : Nat) :
    ¬p.Covers q slot := by
  cases p <;> first | exact id | exact h.elim

/-- A step of another thread has the same effect wherever the consumer is. -/
theorem effect_goto {r r' : State Tid α} {u : Tid} {p p' : Pc α} (h : Effect r r' u)
    (hu : u ≠ consumer) (rests : (∀ j i, r.pc u ≠ .wakeAll j i) → p' = p)
    (wakes : ∀ j i, r.pc u = .wakeAll j i → p' = p.awaken r.q (j.slot r.q + i)) :
    Effect (r.goto consumer p) (r'.goto consumer p') u := by
  have own : (r.goto consumer p).pc u = r.pc u := by
    simp only [State.goto, Function.update_of_ne hu]
  have moved : ∀ x : Pc α, p' = p → r'.pc = Function.update r.pc u x →
      (r'.goto consumer p').pc = Function.update (r.goto consumer p).pc u x := by
    rintro x rfl pc
    simp only [State.goto, pc, Function.update_comm hu]
  cases h with
  | quiet x futex pc passes =>
    refine .quiet x futex (moved x (rests passes.rests) pc) ?_
    rw [own]
    exact passes
  | mark j i here futex pc =>
    exact .mark j i (own.trans here) futex (moved _ (rests fun _ _ eq => by cases here.symm.trans eq) pc)
  | exchange j i here late futex pc =>
    exact .exchange j i (own.trans here) late futex
      (moved _ (rests fun _ _ eq => by cases here.symm.trans eq) pc)
  | store j i here late futex pc =>
    exact .store j i (own.trans here) late futex
      (moved _ (rests fun _ _ eq => by cases here.symm.trans eq) pc)
  | clear j i here futex pc =>
    exact .clear j i (own.trans here) futex (moved _ (rests fun _ _ eq => by cases here.symm.trans eq) pc)
  | wakeAll j i here futex pc =>
    refine .wakeAll j i (own.trans here) futex ?_
    simp only [State.goto, pc, wakes j i here]
    funext x
    by_cases hx : x = consumer
    · subst hx
      simp only [Function.update_self, Function.update_of_ne hu.symm]
    · by_cases hxu : x = u
      · subst hxu
        simp only [Function.update_of_ne hx, Function.update_self]
      · simp only [Function.update_of_ne hx, Function.update_of_ne hxu]

/-- `wake_all` finds the consumer where it finds a thread that waits for its ticket. -/
theorem awaken_timed {num index k : Nat} {wake : Bool} {w : Wait} {shared : State Tid α}
    (q : BoundedQueue α) : TimedState.threads zero consumer
      ⟨shared, (Timed.wait num index wake w).awaken q k⟩ =
        shared.goto consumer (Pc.awaken q k (.wait (Job.timed zero index) 0 w)) := by
  cases w with
  | asleep word =>
    by_cases here : q.slotIndex index = k <;>
      simp [Timed.awaken, Pc.awaken, Job.slot, Job.timed, TimedState.threads, here]
  | load | mark word | sleep word | reload | spin => rfl

omit [DecidableEq Tid] in
theorem after_of_rests {q : BoundedQueue α} {p : Pc α} (rests : ∀ j i, p ≠ .wakeAll j i)
    (m : Move α) (w : Timed) : w.after q p m = w := by
  have none : p.wakes q = none := by
    cases p <;> first | rfl | exact absurd rfl (rests _ _)
  unfold Timed.after
  rw [none]
  split
  · rename_i eq
    cases eq
  · rfl

/-- A step of another thread. -/
theorem threads_advance {t : Tid} {m : Move α} {shared : State Tid α} (ht : t ≠ consumer)
    (step : s.shared.step (t, m) = some shared) :
    Effect (s.threads zero consumer)
      (TimedState.threads zero consumer
        ⟨shared, s.timed.after s.shared.q (s.shared.pc t) m⟩) t := by
  obtain ⟨-, effect⟩ := State.step_effect step
  cases at_ : s.timed with
  | wait num index wake w =>
    rw [threads_wait at_]
    by_cases rests : ∀ j i, s.shared.pc t ≠ .wakeAll j i
    · rw [after_of_rests rests]
      exact effect_goto effect ht (fun _ => rfl) fun j i here => absurd here (rests j i)
    · simp only [not_forall, not_not] at rests
      obtain ⟨j, i, here⟩ := rests
      have stepping : m = .step := by
        cases m with
        | step => rfl
        | call c | weakFail | spurious => simp [State.step, State.enter, here] at step
      subst stepping
      simp only [Timed.after, here, Pc.wakes, awaken_timed]
      refine effect_goto effect ht (fun rests => absurd here (rests j i)) fun k l there => ?_
      cases here.symm.trans there
      rfl
  | out | tryPop num enough =>
    have before : s.threads zero consumer = s.shared := by simp only [TimedState.threads, at_]
    rw [before]
    unfold Timed.after
    split <;> exact effect

/-- The consumer goes elsewhere, and no word changes. -/
theorem threads_quiet {p : Pc α} (new : s'.threads zero consumer = s.shared.goto consumer p)
    (none : ∀ slot, ¬((s.threads zero consumer).pc consumer).Covers s.shared.q slot)
    (awake : p.awake = true) (ok : p.Ok s.shared.q) :
    Effect (s.threads zero consumer) (s'.threads zero consumer) consumer := by
  refine .quiet p ?_ ?_ (passes_of (fun slot => ?_) awake fun _ => ?_)
  · rw [new, threads_q]; rfl
  · rw [new]
    unfold TimedState.threads
    split
    · simp only [State.goto, Function.update_idem]
    · rfl
  · rw [threads_q]; exact none slot
  · rw [threads_q]; exact ok

theorem threads_leave {num n index : Nat} {wake b : Bool} {w : Wait}
    (at_ : s.timed = .wait n index b w) (hs : s.leave consumer num wake = some s') :
    Effect (s.threads zero consumer) (s'.threads zero consumer) consumer := by
  obtain ⟨shared, entered, rfl⟩ := Option.map_eq_some_iff.mp hs
  refine threads_quiet (p := .loadIndex (Call.tryPopN s.shared.q num wake)) ?_ ?_ rfl trivial
  · unfold State.enter at entered
    split at entered <;> cases entered <;> rfl
  · rw [threads_wait at_]
    simp only [State.goto, Function.update_self]
    exact fun _ => id

theorem threads_goto {num n index : Nat} {wake b : Bool} {w w' : Wait}
    (at_ : s.timed = .wait n index b w)
    (new : s' = { s with timed := .wait num index wake w' })
    (awake : ∀ word, w' ≠ .asleep word) (ok : w'.Ok (s.shared.q.expectedVersion .cons index)) :
    Effect (s.threads zero consumer) (s'.threads zero consumer) consumer := by
  subst new
  refine threads_quiet (p := .wait (Job.timed zero index) 0 w') rfl ?_ ?_ ok
  · rw [threads_wait at_]
    simp only [State.goto, Function.update_self]
    exact fun _ => id
  · cases w' <;> first | rfl | exact absurd rfl (awake _)

theorem ok_block_wait {v word : Nat} (differs : u16 word ≠ v) :
    (if word ≤ 65535 then Wait.mark word else .sleep word).Ok v := by
  split_ifs with low
  · exact ⟨low, differs⟩
  · exact ⟨not_le.mp low, differs⟩

/-- The consumer does not wait. -/
theorem threads_of_not_wait (waits : ∀ num index wake w, s.timed ≠ .wait num index wake w) :
    s.threads zero consumer = s.shared := by
  unfold TimedState.threads
  split
  · rename_i at_
    exact absurd at_ (waits _ _ _ _)
  · rfl

/-- Every step of the machine is a step of one of the threads. -/
theorem threads_step {m : TimedMove Tid α} (h : TimedInv consumer s)
    (hs : s.step consumer m = some s') : Same s.shared.q s'.shared.q ∧
      Effect (s.threads zero consumer) (s'.threads zero consumer) (m.mover consumer) := by
  have ok := h.timed
  cases step_cases hs with
  | other t m shared ht pushes step eq =>
    subst eq
    exact ⟨(State.step_effect step).1, threads_advance ht step⟩
  | call c shared waits step eq =>
    subst eq
    obtain ⟨same, effect⟩ := State.step_effect step
    refine ⟨same, ?_⟩
    rw [threads_of_not_wait waits]
    exact effect
  | own m shared waits goes step eq =>
    subst eq
    obtain ⟨same, effect⟩ := State.step_effect step
    refine ⟨same, ?_⟩
    rw [threads_of_not_wait waits, threads_of_not_wait (s := ⟨shared, s.timed⟩) waits]
    exact effect
  | enter num wake waits rests range eq =>
    subst eq
    refine ⟨⟨rfl, rfl⟩, threads_quiet (p := .wait (Job.timed zero
      (s.shared.q.nextPopIndex + num)) 0 .load) rfl ?_ rfl trivial⟩
    rw [threads_of_not_wait waits]
    exact rests.not_covers
  | leave m mine num index wake w at_ hs =>
    rw [mine]
    obtain ⟨shared, entered, eq⟩ := Option.map_eq_some_iff.mp hs
    obtain ⟨same, -⟩ := State.step_effect (m := .call (Call.tryPopN s.shared.q num wake)) entered
    refine ⟨?_, threads_leave at_ hs⟩
    rw [← eq]
    exact same
  | block num index wake w word at_ differs eq =>
    subst eq
    exact ⟨⟨rfl, rfl⟩, threads_goto at_ rfl (fun _ eq => by split_ifs at eq)
      (ok_block_wait differs)⟩
  | mark num index wake word at_ same eq =>
    subst eq same
    have slot : (Job.timed zero index).slot s.shared.q + 0 = s.shared.q.slotIndex index := rfl
    refine ⟨⟨rfl, rfl⟩, .mark (Job.timed zero index) 0 ?_ ?_ ?_⟩
    · rw [threads_q, slot, threads_wait at_]
      simp only [State.goto, TimedMove.mover, Function.update_self]
    · rw [threads_q, threads_q, slot]
      rfl
    · rw [threads_q, slot, threads_wait at_]
      simp only [TimedState.threads, TimedMove.mover, State.goto, Function.update_idem]
  | sleep num index wake word at_ same eq =>
    subst eq
    refine ⟨⟨rfl, rfl⟩, .quiet (.wait (Job.timed zero index) 0 (.asleep word)) ?_ ?_ ?_⟩
    · rw [threads_q, threads_q]
    · rw [threads_wait at_]
      simp only [TimedState.threads, TimedMove.mover, State.goto, Function.update_idem]
    · rw [threads_wait at_]
      simp only [State.goto, TimedMove.mover, Function.update_self]
      refine ⟨(fun _ _ eq => by cases eq), fun k l v eq => ?_, fun _ => id, id⟩
      cases eq
      exact same
  | reload m mine num index wake w at_ eq =>
    subst eq
    rw [mine]
    exact ⟨⟨rfl, rfl⟩, threads_goto at_ rfl (fun _ eq => by cases eq) trivial⟩

end Threads

/-! ## When the wait ends -/

/-- The consumer has left its wait. -/
def Timed.left : Timed → Bool
  | .tryPop _ _ => true
  | _ => false

/-- How many elements the pop asks for in whose wait the consumer goes by the futex word;
a `futex_wait` that finds another word than the one before returns at once. -/
def TimedState.look (s : TimedState Tid α) : TimedMove Tid α → Option Nat
  | .wait =>
    match s.timed with
    | .wait num index _ (.sleep word) =>
      if s.shared.q.futex (s.shared.q.slotIndex index) = word then some num else none
    | .wait num _ _ _ => some num
    | _ => none
  | _ => none

/-- The batch and the slot of a consumer that sleeps. -/
def TimedState.sleepsOn (s : TimedState Tid α) : Option (Nat × Nat) :=
  match s.timed with
  | .wait num index _ (.asleep _) => some (num, s.shared.q.slotIndex index)
  | _ => none

/-- A step is prompt. The wait is over exactly if as many elements are published as the pop
asks for; a consumer that sleeps although they are is about to be woken; and a pop that
finds them takes them all. -/
structure Prompt (consumer : Tid) (s : TimedState Tid α) (m : TimedMove Tid α)
    (s' : TimedState Tid α) : Prop where
  look : ∀ num, s.look m = some num → (s'.timed.left = true ↔ Enough s.shared num)
  woken : ∀ num slot, s'.sleepsOn = some (num, slot) → Enough s'.shared num →
    ∃ u, (s'.shared.pc u).Covers s'.shared.q slot ∧ s'.shared.GoesToWake u slot
  returns : ∀ num c moved, m = .thread consumer .step → s'.timed = .tryPop num true →
    s'.shared.pc consumer = .returned c moved → moved = num

/-- The element behind the batch is published; a batch of the whole ring has none. -/
def Next (s : State Tid α) (num : Nat) : Prop :=
  num < s.q.capacity ∧ Published s (s.q.nextPopIndex + num)

/-- When the consumer looks, either at least one element more is published than the pop asks
for, or fewer are and the one behind them is not. While it sleeps and as many are published
as it asks for, the one behind them is, or somebody wakes the sleepers of the slot anyway. -/
structure OneMore (s : TimedState Tid α) (m : TimedMove Tid α) (s' : TimedState Tid α) :
    Prop where
  look : ∀ num, s.look m = some num → (Enough s.shared num ↔ Next s.shared num)
  woken : ∀ num slot, s'.sleepsOn = some (num, slot) → Enough s'.shared num →
    Next s'.shared num ∨ s'.shared.Covered slot

instance (s : State Tid α) (num : Nat) : Decidable (Next s num) :=
  inferInstanceAs (Decidable (_ ∧ _))

/-- No call asks for more tickets than the ring has slots, every call of another thread than
the consumer is compiled with `USE_FUTEX_WAKE`, as the `USE_FUTEX_WAIT` of the consumer
requires, and the tickets that are claimed and not yet completed span fewer than `2^15`
rounds. -/
structure TimedDisciplined (consumer : Tid) (s : TimedState Tid α) (m : TimedMove Tid α)
    (_ : TimedState Tid α) : Prop where
  fits : ∀ t c, m = .thread t (.call c) → c.num ≤ s.shared.q.capacity
  wakes : ∀ t c, m = .thread t (.call c) → t ≠ consumer → c.wake = true
  spans : Spans s.shared

section Runs

variable {consumer : Tid} {s s' : TimedState Tid α} {m : TimedMove Tid α}

/-- The invariant together with what the sleepers need. -/
structure TimedWatched (zero : α) (consumer : Tid) (s : TimedState Tid α) : Prop
    extends TimedInv consumer s where
  wake : ∀ t ≠ consumer, ∀ c, (s.shared.pc t).call? = some c → c.wake = true
  words : ∀ t, ((s.threads zero consumer).pc t).Ok s.shared.q
  woken : ∀ slot word, (s.threads zero consumer).Asleep consumer slot word →
    s.shared.q.futex slot = word ∨ (s.threads zero consumer).Covered slot

theorem timedWatched_fresh (consumer : Tid) (zero : α) (minCapacity : Nat) :
    TimedWatched zero consumer ⟨BoundedQueue.fresh Tid zero minCapacity, .out⟩ where
  inv := inv_fresh ..
  roles _ _ _ call := by cases call
  timed := trivial
  wake _ _ _ call := by cases call
  words _ := trivial
  woken _ _ asleep := by
    obtain ⟨j, i, hp, -⟩ := asleep
    cases hp

theorem TimedWatched.step {zero : α} (h : TimedWatched zero consumer s)
    (ok : TimedDisciplined consumer s m s') (hs : s.step consumer m = some s') :
    TimedWatched zero consumer s' := by
  obtain ⟨same, effect⟩ : _ ∧ Effect (s.threads zero consumer) _ _ := threads_step h.toTimedInv hs
  have geometry : Same (s.threads zero consumer).q (s'.threads zero consumer).q := by
    rwa [threads_q, threads_q]
  have words : ∀ t, ((s.threads zero consumer).pc t).Ok (s.threads zero consumer).q := by
    rw [threads_q]
    exact h.words
  refine ⟨h.toTimedInv.step ok.spans ok.fits hs, fun t ht c hc => ?_, fun t => ?_,
    fun slot word asleep => ?_⟩
  · obtain before | made := call?_of_timedStep hs ht hc
    · exact h.wake t ht c before
    · exact ok.wakes t c made ht
  · have := State.ok_step words geometry effect t
    rwa [threads_q] at this
  · have := State.woken_step words geometry effect (fun other c hc => ?_)
      (fun asleep => by rw [threads_q]; exact h.woken slot word asleep) asleep
    · rwa [threads_q] at this
    · rw [threads_other other.symm] at hc
      exact h.wake _ other.symm c hc

theorem left_of_leave {num : Nat} {wake : Bool} (hs : s.leave consumer num wake = some s') :
    s'.timed.left = true := by
  obtain ⟨shared, -, rfl⟩ := Option.map_eq_some_iff.mp hs
  rfl

/-- A look ends the wait exactly if the slot is ready. -/
theorem left_iff_ready {num index : Nat} {wake : Bool} {w : Wait}
    (ok : w.Ok (s.shared.q.expectedVersion .cons index))
    (looks : ∀ word, w = .sleep word → s.shared.q.futex (s.shared.q.slotIndex index) = word)
    (hs : s.advanceWait consumer num index wake w = some s') :
    s'.timed.left = true ↔ u16 (s.shared.q.futex (s.shared.q.slotIndex index)) =
      s.shared.q.expectedVersion .cons index := by
  cases w with
  | load | reload =>
    simp only [TimedState.advanceWait] at hs
    split_ifs at hs with ready
    · exact iff_of_true (left_of_leave hs) ready
    · cases hs
      exact iff_of_false Bool.false_ne_true ready
  | mark word =>
    simp only [TimedState.advanceWait] at hs
    split_ifs at hs with same ready
    · cases hs
      exact iff_of_false Bool.false_ne_true (same ▸ ok.2)
    · exact iff_of_true (left_of_leave hs) ready
    · cases hs
      exact iff_of_false Bool.false_ne_true ready
  | sleep word =>
    have same := looks word rfl
    simp only [TimedState.advanceWait, if_pos same, Option.some.injEq] at hs
    subst hs
    exact iff_of_false Bool.false_ne_true (same ▸ ok.2)
  | asleep word | spin => cases hs

/-- The consumer looks at the slot of the element behind its batch. -/
theorem TimedInv.left_iff (h : TimedInv consumer s) (hs : s.step consumer m = some s') {num : Nat}
    (look : s.look m = some num) : s'.timed.left = true ↔ Next s.shared num := by
  cases m with
  | wait =>
    simp only [TimedState.step] at hs
    cases at_ : s.timed with
    | wait asked index wake w =>
      have ok := h.timed
      rw [at_] at ok hs
      obtain ⟨rests, fits, eq, ok⟩ := ok
      have looked : asked = num ∧ ∀ word, w = .sleep word →
          s.shared.q.futex (s.shared.q.slotIndex index) = word := by
        simp only [TimedState.look, at_] at look
        cases w <;> simp only at look
        case sleep word =>
          split_ifs at look with same
          cases look
          exact ⟨rfl, fun _ eq => by cases eq; exact same⟩
        all_goals
          cases look
          exact ⟨rfl, fun _ eq => by cases eq⟩
      obtain ⟨rfl, looks⟩ := looked
      rw [left_iff_ready ok looks hs, eq, h.inv.timed_ready_iff (h.not_holds rests) fits, Next]
    | out | tryPop n enough => rw [at_] at hs; cases hs
  | thread t m | enter n wake | timedOut | spurious => cases look

omit [DecidableEq Tid] in
/-- A batch pop that has found its elements returns them all. -/
theorem TimedInv.returns (h : TimedInv consumer s) {num moved : Nat} {c : Call α}
    (timed : s.timed = .tryPop num true) (returned : s.shared.pc consumer = .returned c moved) :
    moved = num := by
  have ok := h.timed
  rw [timed] at ok
  have full := ok rfl
  rwa [returned] at full

/-- A thread that will wake the sleepers of a slot is not the consumer, and not blocked. -/
theorem TimedWatched.goesToWake {zero : α} (h : TimedWatched zero consumer s) {u : Tid}
    {slot : Nat} (waits : (s.shared.pc consumer).Rests)
    (covers : (s.shared.pc u).Covers s.shared.q slot) : s.shared.GoesToWake u slot := by
  refine State.goesToWake_of_covers le_rfl (fun c hc => h.wake u ?_ c hc) covers
  rintro rfl
  exact waits.not_covers slot covers

/-- When the slot of a consumer that sleeps has become ready, somebody will wake it. -/
theorem TimedWatched.covered {zero : α} (h : TimedWatched zero consumer s) {num index word : Nat}
    {wake : Bool} (at_ : s.timed = .wait num index wake (.asleep word))
    (next : Next s.shared num) : s.shared.Covered (s.shared.q.slotIndex index) := by
  have ok := h.timed
  rw [at_] at ok
  obtain ⟨rests, fits, rfl, -, differs⟩ := ok
  have ready := (h.inv.timed_ready_iff (h.not_holds rests) fits).mpr next
  have asleep : (s.threads zero consumer).Asleep consumer
      (s.shared.q.slotIndex (s.shared.q.nextPopIndex + num)) word := by
    refine ⟨Job.timed zero (s.shared.q.nextPopIndex + num), 0, ?_, by rw [threads_q]; rfl⟩
    rw [threads_wait at_]
    simp only [State.goto, Function.update_self]
  obtain same | ⟨u, covers⟩ := h.woken _ _ asleep
  · rw [same] at ready
    exact absurd ready differs
  · rw [threads_q] at covers
    refine ⟨u, ?_⟩
    by_cases hu : u = consumer
    · subst hu
      rw [threads_wait at_] at covers
      simp only [State.goto, Function.update_self] at covers
      exact covers.elim
    · rwa [threads_other hu] at covers

/-- One step. -/
theorem TimedWatched.prompt_step_iff {zero : α} (h : TimedWatched zero consumer s)
    (h' : TimedWatched zero consumer s') (hs : s.step consumer m = some s') :
    Prompt consumer s m s' ↔ OneMore s m s' := by
  constructor
  · intro prompt
    refine ⟨fun num look => ?_, fun num slot sleeps enough => ?_⟩
    · exact (prompt.look num look).symm.trans (h.left_iff hs look)
    · obtain ⟨u, covers, -⟩ := prompt.woken num slot sleeps enough
      exact Or.inr ⟨u, covers⟩
  · intro more
    refine ⟨fun num look => ?_, fun num slot sleeps enough => ?_, fun num c moved _ => h'.returns⟩
    · exact (h.left_iff hs look).trans (more.look num look).symm
    · obtain ⟨index, wake, word, at_, rfl⟩ : ∃ index wake word,
          s'.timed = .wait num index wake (.asleep word) ∧ slot = s'.shared.q.slotIndex index := by
        unfold TimedState.sleepsOn at sleeps
        split at sleeps
        · rename_i at_
          cases sleeps
          exact ⟨_, _, _, at_, rfl⟩
        · cases sleeps
      have rests : (s'.shared.pc consumer).Rests := by
        have ok := h'.timed
        rw [at_] at ok
        exact ok.1
      obtain ⟨u, covers⟩ : s'.shared.Covered (s'.shared.q.slotIndex index) :=
        (more.woken num _ sleeps enough).elim (h'.covered at_) id
      exact ⟨u, covers, h'.goesToWake rests covers⟩

/-- In every run of a queue with one consumer, all timed batch pops are prompt if and only
if, whenever the consumer looks at its slot, either at least one element more is published
than it asks for, or fewer are and the one behind them is not (and it does not sleep on
exactly as many as it asks for). -/
theorem prompt_iff (consumer : Tid) (zero : α) (minCapacity : Nat) {moves : List (TimedMove Tid α)}
    (along : (timedMachine consumer zero minCapacity).Along (TimedDisciplined consumer)
      ⟨BoundedQueue.fresh Tid zero minCapacity, .out⟩ moves) :
    (timedMachine consumer zero minCapacity).Along (Prompt consumer)
        ⟨BoundedQueue.fresh Tid zero minCapacity, .out⟩ moves ↔
      (timedMachine consumer zero minCapacity).Along OneMore
        ⟨BoundedQueue.fresh Tid zero minCapacity, .out⟩ moves := by
  refine along.congr (timedWatched_fresh consumer zero minCapacity) fun s m s' inv hs side => ?_
  have inv' := inv.step side hs
  exact ⟨inv', inv.prompt_step_iff inv' hs⟩

/-- Tickets of at most `2^15 - 1` rounds are claimed so far, and the consumer finds more
elements than it asks for. -/
def Plenty (s : TimedState Tid α) (m : TimedMove Tid α) (s' : TimedState Tid α) : Prop :=
  (match m with
    | .thread _ (.call c) => decide (c.num ≤ s.shared.q.capacity ∧ c.wake = true)
    | _ => true) = true ∧
      s.shared.q.nextPushIndex ≤ 32767 * s.shared.q.capacity ∧
        s.shared.q.nextPopIndex ≤ 32767 * s.shared.q.capacity ∧
          (∀ num ∈ s.look m, Enough s.shared num ∧ Next s.shared num) ∧ s'.sleepsOn = none

instance (s s' : TimedState Tid α) (m : TimedMove Tid α) : Decidable (Plenty s m s') :=
  inferInstanceAs (Decidable (_ ∧ _))

omit [DecidableEq Tid] in
theorem Plenty.disciplined (h : Plenty s m s') (inv : TimedInv consumer s) :
    TimedDisciplined consumer s m s' where
  fits t c eq := by
    subst eq
    exact (of_decide_eq_true h.1).1
  wakes t c eq _ := by
    subst eq
    exact (of_decide_eq_true h.1).2
  spans := inv.inv.spans_of_short fun σ => by cases σ; exacts [h.2.1, h.2.2.1]

omit [DecidableEq Tid] in
theorem Plenty.oneMore (h : Plenty s m s') : OneMore s m s' where
  look num look := iff_of_true (h.2.2.2.1 num look).1 (h.2.2.2.1 num look).2
  woken num slot sleeps := by rw [h.2.2.2.2] at sleeps; cases sleeps

end Runs

/-- On a ring of two slots thread 1 pushes a batch of two, and the consumer pops one. -/
def oneOfTwo : List (TimedMove Nat Nat) :=
  .thread 1 (.call ⟨.prod, some 2, false, true, true, fun i => 7 + i⟩) ::
    List.replicate 8 (.thread 1 .step) ++ [.enter 1 true, .wait] ++
      List.replicate 6 (.thread 0 .step)

theorem prompt_iff_oneOfTwo :
    (timedMachine 0 0 2).Along (Prompt 0) ⟨BoundedQueue.fresh Nat 0 2, .out⟩ oneOfTwo ∧
      ((timedMachine 0 0 2).run ⟨BoundedQueue.fresh Nat 0 2, .out⟩ oneOfTwo).map (fun s =>
        (s.timed, s.shared.hist.ran .cons)) = some (.tryPop 1 true, [(0, 7)]) := by
  have plenty : (timedMachine 0 0 2).Along Plenty ⟨BoundedQueue.fresh Nat 0 2, .out⟩ oneOfTwo := by
    decide +kernel
  have along := plenty.imp (timedWatched_fresh 0 0 2) fun s m s' inv hs side =>
    have disciplined := side.disciplined inv.toTimedInv
    ⟨inv.step disciplined hs, disciplined⟩
  have more := plenty.imp (I := fun _ => True) trivial fun s m s' _ _ side => ⟨trivial, side.oneMore⟩
  exact ⟨(prompt_iff 0 0 2 along).mpr more, by decide +kernel⟩

/-- The same with a batch of one. -/
def oneOfOne : List (TimedMove Nat Nat) :=
  .thread 1 (.call ⟨.prod, some 1, false, true, true, fun _ => 7⟩) ::
    List.replicate 5 (.thread 1 .step)

/-- The element that the consumer asks for is published before its call, and the consumer
sleeps all the same. -/
theorem timedPop_sleeps : ∃ s s' : TimedState Nat Nat,
    (timedMachine 0 0 2).run ⟨BoundedQueue.fresh Nat 0 2, .out⟩ oneOfOne = some s ∧
      s.timed = .out ∧ Enough s.shared 1 ∧
        (timedMachine 0 0 2).run s [.enter 1 true, .wait, .wait, .wait] = some s' ∧
          s'.timed = .wait 1 1 true (.asleep 65536) := by
  have before : ((timedMachine 0 0 2).run ⟨BoundedQueue.fresh Nat 0 2, .out⟩ oneOfOne).map
      (fun s => (s.timed, decide (Enough s.shared 1))) = some (.out, true) := by decide +kernel
  have after : (((timedMachine 0 0 2).run ⟨BoundedQueue.fresh Nat 0 2, .out⟩ oneOfOne).bind
      fun s => (timedMachine 0 0 2).run s [.enter 1 true, .wait, .wait, .wait]).map
        TimedState.timed = some (.wait 1 1 true (.asleep 65536)) := by decide +kernel
  obtain ⟨s, run, seen⟩ := Option.map_eq_some_iff.mp before
  rw [run, Option.bind_some] at after
  obtain ⟨s', run', seen'⟩ := Option.map_eq_some_iff.mp after
  simp only [Prod.mk.injEq, decide_eq_true_eq] at seen
  exact ⟨s, s', run, seen.1, seen.2, run', seen'⟩

end Fuxi.Base.BoundedQueue
