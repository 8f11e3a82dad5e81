import Fuxi.Base.BoundedQueue.ExactlyOnce
import Fuxi.Base.BoundedQueue.Wakeup

/-!
# `try_pop_n_exclusively_until`

The only consumer of a queue pops a batch and waits for it at most as long as its timeout
says. It waits on one slot and one version, those of the ticket `_next_pop_index + num`,
and then runs `try_pop_n` once. The ticket of the last element of the batch is the one
before: so the wait ends with the publication of one element more than the batch has, and
for a batch of the size of the ring it waits for a push that needs one of its own pops.
-/

namespace Fuxi.Base.BoundedQueue

open Lib

variable {α Tid : Type*}

/-- Where the consumer is in a timed batch pop of `num` elements: it waits for the pop
version of the ticket `index`, or it runs `try_pop_n`. Whether `num` elements were published
when its wait was over (`enough`) is a record that no step reads. -/
inductive Timed
  | out
  | wait (num index : Nat) (wake : Bool) (w : Wait)
  | tryPop (num : Nat) (enough : Bool)
  deriving DecidableEq

structure TimedState (Tid α : Type*) where
  shared : State Tid α
  timed : Timed

/-- A step of a thread in a call of the interleaved queue; the consumer calls
`try_pop_n_exclusively_until`, does the next step of its wait, finds its time used up or
wakes up for no reason. -/
inductive TimedMove (Tid α : Type*)
  | thread (t : Tid) (m : Move α)
  | enter (num : Nat) (wake : Bool)
  | wait
  | timedOut
  | spurious

/-- `wake_all` on a slot. -/
def Timed.awaken (q : BoundedQueue α) (slot : Nat) : Timed → Timed
  | .wait num index wake (.asleep word) =>
    .wait num index wake (if q.slotIndex index = slot then .reload else .asleep word)
  | w => w

/-- The slot that a step of a thread wakes. -/
def Pc.wakes (q : BoundedQueue α) : Pc α → Option Nat
  | .wakeAll j i => some (j.slot q + i)
  | _ => none

/-- The consumer after a move of another thread, which was at `p`. -/
def Timed.after (q : BoundedQueue α) (p : Pc α) (m : Move α) (w : Timed) : Timed :=
  match m, p.wakes q with
  | .step, some slot => w.awaken q slot
  | _, _ => w

/-- The call of `try_pop_n<false, USE_FUTEX_WAKE>` that ends a timed pop. With one consumer
its plain store of the next index is a compare-exchange that succeeds. -/
def Call.tryPopN (q : BoundedQueue α) (num : Nat) (wake : Bool) : Call α :=
  ⟨.cons, some num, true, false, wake, q.value⟩

/-- The ticket has been pushed, and its slot has been published. -/
def Published (s : State Tid α) (k : Nat) : Prop :=
  phase s.q.capacity .prod k < s.hist.ver (k % s.q.capacity)

/-- At least `num` elements are published from the pop index on. -/
def Enough (s : State Tid α) (num : Nat) : Prop := ∀ i < num, Published s (s.q.nextPopIndex + i)

instance (s : State Tid α) (k : Nat) : Decidable (Published s k) :=
  inferInstanceAs (Decidable (_ < _))

instance (s : State Tid α) (num : Nat) : Decidable (Enough s num) :=
  inferInstanceAs (Decidable (∀ i < num, _))

namespace TimedState

variable [DecidableEq Tid]

/-- The wait is over: the consumer calls `try_pop_n`. -/
def leave (s : TimedState Tid α) (consumer : Tid) (num : Nat) (wake : Bool) :
    Option (TimedState Tid α) :=
  (s.shared.enter consumer (Call.tryPopN s.shared.q num wake)).map fun shared =>
    ⟨shared, .tryPop num (Enough s.shared num)⟩

/-- The top of the loop in `block_until_reach_expected_version_slow`. -/
def block (s : TimedState Tid α) (num index : Nat) (wake : Bool) (word : Nat) :
    TimedState Tid α :=
  { s with timed := .wait num index wake (if word ≤ 65535 then .mark word else .sleep word) }

/-- The next step of `wait_until_reach_expected_version<true>` for the ticket `index`. -/
def advanceWait (s : TimedState Tid α) (consumer : Tid) (num index : Nat) (wake : Bool) :
    Wait → Option (TimedState Tid α)
  | .load | .reload =>
    let word := s.shared.q.futex (s.shared.q.slotIndex index)
    if u16 word = s.shared.q.expectedVersion .cons index then s.leave consumer num wake
    else some (s.block num index wake word)
  | .mark word =>
    let actual := s.shared.q.futex (s.shared.q.slotIndex index)
    if actual = word then
      some
        { shared :=
            { s.shared with
              q := setFutex s.shared.q (s.shared.q.slotIndex index) (word + 65536) }
          timed := .wait num index wake (.sleep (word + 65536)) }
    else if u16 actual = s.shared.q.expectedVersion .cons index then s.leave consumer num wake
    else some (s.block num index wake actual)
  | .sleep word =>
    if s.shared.q.futex (s.shared.q.slotIndex index) = word then
      some { s with timed := .wait num index wake (.asleep word) }
    else some { s with timed := .wait num index wake .reload }
  | .asleep _ | .spin => none

/-- A step of a thread in a call of the interleaved queue. Only the consumer pops, and
while it waits in a timed pop it does nothing else. -/
def advanceThread (s : TimedState Tid α) (consumer t : Tid) (m : Move α) :
    Option (TimedState Tid α) :=
  let pops : Bool := match m with
    | .call c => decide (c.side = .cons)
    | _ => false
  if t ≠ consumer then
    if pops then none
    else
      (s.shared.step (t, m)).map fun shared =>
        ⟨shared, s.timed.after s.shared.q (s.shared.pc t) m⟩
  else
    match s.timed, m with
    | .wait .., _ => none
    | _, .call c => (s.shared.enter t c).map fun shared => ⟨shared, .out⟩
    | timed, m => (s.shared.step (t, m)).map fun shared => ⟨shared, timed⟩

/-- The consumer enters `try_pop_n_exclusively_until`, when it is in no call. -/
def enter (s : TimedState Tid α) (consumer : Tid) (num : Nat) (wake : Bool) :
    Option (TimedState Tid α) :=
  match s.timed, s.shared.pc consumer with
  | .wait .., _ => none
  | _, .idle | _, .returned _ _ =>
    if 1 ≤ num ∧ num ≤ s.shared.q.capacity then
      some { s with timed := .wait num (s.shared.q.nextPopIndex + num) wake .load }
    else none
  | _, _ => none

def step (consumer : Tid) (s : TimedState Tid α) :
    TimedMove Tid α → Option (TimedState Tid α)
  | .thread t m => s.advanceThread consumer t m
  | .enter num wake => s.enter consumer num wake
  | .wait =>
    match s.timed with
    | .wait num index wake w => s.advanceWait consumer num index wake w
    | _ => none
  | .timedOut =>
    match s.timed with
    | .wait num _ wake (.asleep _) => s.leave consumer num wake
    | .wait num index wake .reload =>
      -- the version is still another one, and the remaining time is not positive
      if u16 (s.shared.q.futex (s.shared.q.slotIndex index)) =
        s.shared.q.expectedVersion .cons index then none
      else s.leave consumer num wake
    | _ => none
  | .spurious =>
    match s.timed with
    | .wait num index wake (.asleep _) => some { s with timed := .wait num index wake .reload }
    | _ => none

end TimedState

/-- A queue with one consumer, which pops with a timeout and in every other way. -/
def timedMachine [DecidableEq Tid] (consumer : Tid) (zero : α) (minCapacity : Nat) :
    Machine (TimedState Tid α) (TimedMove Tid α) where
  start s := s = ⟨BoundedQueue.fresh Tid zero minCapacity, .out⟩
  step := TimedState.step consumer

/-! ## What a step does -/

/-- The thread is in no call. -/
def Pc.Rests : Pc α → Prop
  | .idle | .returned _ _ => True
  | _ => False

/-- Who makes a move. -/
def TimedMove.mover (consumer : Tid) : TimedMove Tid α → Tid
  | .thread t _ => t
  | _ => consumer

variable [DecidableEq Tid]

/-- What one step does: another thread goes on; the consumer, which does not wait, makes a
call, goes on with it or enters a timed pop; or it leaves its wait, starts a round of it,
marks the word, falls asleep or wakes up. -/
inductive Stepped (consumer : Tid) (s s' : TimedState Tid α) : TimedMove Tid α → Prop
  | other (t : Tid) (m : Move α) (shared : State Tid α) (ht : t ≠ consumer)
      (pushes : ∀ c, m = .call c → c.side = .prod) (step : s.shared.step (t, m) = some shared)
      (eq : s' = ⟨shared, s.timed.after s.shared.q (s.shared.pc t) m⟩) :
      Stepped consumer s s' (.thread t m)
  | call (c : Call α) (shared : State Tid α)
      (waits : ∀ num index wake w, s.timed ≠ .wait num index wake w)
      (step : s.shared.step (consumer, .call c) = some shared)
      (eq : s' = ⟨shared, .out⟩) : Stepped consumer s s' (.thread consumer (.call c))
  | own (m : Move α) (shared : State Tid α)
      (waits : ∀ num index wake w, s.timed ≠ .wait num index wake w)
      (goes : ∀ c, m ≠ .call c) (step : s.shared.step (consumer, m) = some shared)
      (eq : s' = ⟨shared, s.timed⟩) : Stepped consumer s s' (.thread consumer m)
  | enter (num : Nat) (wake : Bool)
      (waits : ∀ num index wake w, s.timed ≠ .wait num index wake w)
      (rests : (s.shared.pc consumer).Rests) (range : 1 ≤ num ∧ num ≤ s.shared.q.capacity)
      (eq : s' = ⟨s.shared, .wait num (s.shared.q.nextPopIndex + num) wake .load⟩) :
      Stepped consumer s s' (.enter num wake)
  | leave (m : TimedMove Tid α) (mine : m.mover consumer = consumer) (num index : Nat)
      (wake : Bool) (w : Wait) (at_ : s.timed = .wait num index wake w)
      (hs : s.leave consumer num wake = some s') : Stepped consumer s s' m
  | block (num index : Nat) (wake : Bool) (w : Wait) (word : Nat)
      (at_ : s.timed = .wait num index wake w)
      (differs : u16 word ≠ s.shared.q.expectedVersion .cons index)
      (eq : s' = s.block num index wake word) : Stepped consumer s s' .wait
  | mark (num index : Nat) (wake : Bool) (word : Nat)
      (at_ : s.timed = .wait num index wake (.mark word))
      (same : s.shared.q.futex (s.shared.q.slotIndex index) = word)
      (eq : s' =
        { shared :=
            { s.shared with
              q := setFutex s.shared.q (s.shared.q.slotIndex index) (word + 65536) }
          timed := .wait num index wake (.sleep (word + 65536)) }) : Stepped consumer s s' .wait
  | sleep (num index : Nat) (wake : Bool) (word : Nat)
      (at_ : s.timed = .wait num index wake (.sleep word))
      (same : s.shared.q.futex (s.shared.q.slotIndex index) = word)
      (eq : s' = ⟨s.shared, .wait num index wake (.asleep word)⟩) : Stepped consumer s s' .wait
  | reload (m : TimedMove Tid α) (mine : m.mover consumer = consumer) (num index : Nat)
      (wake : Bool) (w : Wait) (at_ : s.timed = .wait num index wake w)
      (eq : s' = ⟨s.shared, .wait num index wake .reload⟩) : Stepped consumer s s' m

section Cases

variable {consumer : Tid} {s s' : TimedState Tid α}

theorem advanceThread_cases {t : Tid} {m : Move α} (hs : s.advanceThread consumer t m = some s') :
    Stepped consumer s s' (.thread t m) := by
  unfold TimedState.advanceThread at hs
  simp only at hs
  split_ifs at hs with other pops
  · obtain ⟨shared, step, rfl⟩ := Option.map_eq_some_iff.mp hs
    refine .other t m shared other (fun c made => ?_) step rfl
    subst made
    cases side : c.side with
    | prod => rfl
    | cons => simp [side] at pops
  · obtain rfl := not_not.mp other
    split at hs
    · cases hs
    · rename_i c waits
      obtain ⟨shared, entered, rfl⟩ := Option.map_eq_some_iff.mp hs
      exact .call c shared (fun _ _ _ _ => waits _ _ _ _) entered rfl
    · rename_i m _ _ calls waits
      obtain ⟨shared, step, rfl⟩ := Option.map_eq_some_iff.mp hs
      exact .own m shared (fun _ _ _ _ => waits _ _ _ _) (fun c => calls c) step rfl

theorem advanceWait_cases {num index : Nat} {wake : Bool} {w : Wait}
    (at_ : s.timed = .wait num index wake w)
    (hs : s.advanceWait consumer num index wake w = some s') : Stepped consumer s s' .wait := by
  cases w with
  | load | reload =>
    simp only [TimedState.advanceWait] at hs
    split_ifs at hs with ready
    · exact .leave _ rfl num index wake _ at_ hs
    · cases hs
      exact .block num index wake _ _ at_ ready rfl
  | mark word =>
    simp only [TimedState.advanceWait] at hs
    split_ifs at hs with same ready
    · cases hs
      exact .mark num index wake word at_ same rfl
    · exact .leave _ rfl num index wake _ at_ hs
    · cases hs
      exact .block num index wake _ _ at_ ready rfl
  | sleep word =>
    simp only [TimedState.advanceWait] at hs
    split_ifs at hs with same <;> cases hs
    · exact .sleep num index wake word at_ same rfl
    · exact .reload _ rfl num index wake _ at_ rfl
  | asleep word | spin => cases hs

theorem step_cases {m : TimedMove Tid α} (hs : s.step consumer m = some s') :
    Stepped consumer s s' m := by
  cases m with
  | thread t m => exact advanceThread_cases hs
  | enter num wake =>
    simp only [TimedState.step, TimedState.enter] at hs
    split at hs
    · cases hs
    · rename_i hp waits
      split_ifs at hs with range
      cases hs
      exact .enter num wake (fun _ _ _ _ => waits _ _ _ _) (by rw [hp]; trivial) range rfl
    · rename_i hp waits
      split_ifs at hs with range
      cases hs
      exact .enter num wake (fun _ _ _ _ => waits _ _ _ _) (by rw [hp]; trivial) range rfl
    · cases hs
  | wait =>
    simp only [TimedState.step] at hs
    split at hs
    · rename_i at_
      exact advanceWait_cases at_ hs
    · cases hs
  | timedOut =>
    simp only [TimedState.step] at hs
    split at hs
    · rename_i at_
      exact .leave _ rfl _ _ _ _ at_ hs
    · rename_i at_
      split_ifs at hs
      exact .leave _ rfl _ _ _ _ at_ hs
    · cases hs
  | spurious =>
    simp only [TimedState.step] at hs
    split at hs
    · rename_i at_
      cases hs
      exact .reload _ rfl _ _ _ _ at_ rfl
    · cases hs

/-- The calls that the other threads are in after a step are those before it and the one
made. -/
theorem call?_of_timedStep {m : TimedMove Tid α} (hs : s.step consumer m = some s') {t : Tid}
    (ht : t ≠ consumer) {c : Call α} (hc : (s'.shared.pc t).call? = some c) :
    (s.shared.pc t).call? = some c ∨ m = .thread t (.call c) := by
  have mine : ∀ {m : Move α} {shared : State Tid α}, s.shared.step (consumer, m) = some shared →
      (shared.pc t).call? = some c → (s.shared.pc t).call? = some c := fun step hc =>
    (State.call?_of_step step hc).resolve_right fun made => ht made.1
  cases step_cases hs with
  | other u m shared hu pushes step eq =>
    subst eq
    obtain before | ⟨rfl, rfl⟩ := State.call?_of_step step hc
    · exact Or.inl before
    · exact Or.inr rfl
  | call c shared waits step eq =>
    subst eq
    exact Or.inl (mine step hc)
  | own m shared waits goes step eq =>
    subst eq
    exact Or.inl (mine step hc)
  | leave m own num index wake w at_ hs =>
    obtain ⟨shared, entered, rfl⟩ := Option.map_eq_some_iff.mp hs
    exact Or.inl (mine (m := .call (Call.tryPopN s.shared.q num wake)) entered hc)
  | enter num wake waits rests range eq | block num index wake w word at_ differs eq
  | mark num index wake word at_ same eq | sleep num index wake word at_ same eq
  | reload m own num index wake w at_ eq =>
    subst eq
    exact Or.inl hc

end Cases

/-! ## Slots between the indices of an idle consumer -/

omit [DecidableEq Tid]

theorem Pc.Holds.call? {p : Pc α} {σ : Side} {k : Nat} (h : p.Holds σ k) :
    ∃ c, p.call? = some c ∧ c.side = σ := by
  cases p <;> simp only [Pc.Holds] at h
  all_goals exact ⟨_, rfl, h.1.symm⟩

namespace Inv

variable {s : State Tid α}

/-- When no pop is under way, every ticket below the pop index is popped. -/
theorem popped (h : Inv s) (rests : ∀ t k, ¬(s.pc t).Holds .cons k) {k : Nat}
    (lt : k < s.q.nextPopIndex) :
    phase s.q.capacity .cons k < s.hist.ver (k % s.q.capacity) := by
  by_contra ge
  obtain ⟨t, holds⟩ := h.cover .cons k lt (not_lt.mp ge)
  exact rests t k holds

/-- The slot of one of the next `capacity` tickets waits for its push or for its pop. -/
theorem ver_between (h : Inv s) (rests : ∀ t k, ¬(s.pc t).Holds .cons k) {k : Nat}
    (lo : s.q.nextPopIndex ≤ k) (hi : k < s.q.nextPopIndex + s.q.capacity) :
    phase s.q.capacity .prod k ≤ s.hist.ver (k % s.q.capacity) ∧
      s.hist.ver (k % s.q.capacity) ≤ phase s.q.capacity .cons k := by
  refine ⟨?_, h.fresh .cons k lo⟩
  obtain small | large := Nat.lt_or_ge k s.q.capacity
  · rw [phase, Nat.div_eq_of_lt small]
    exact Nat.zero_le _
  · have before := h.popped rests (show k - s.q.capacity < s.q.nextPopIndex by omega)
    obtain ⟨i, rfl⟩ := Nat.exists_eq_add_of_le large
    rw [Nat.add_sub_cancel_left, phase] at before
    rw [phase, Nat.add_mod_left, Nat.add_div_left _ h.sized.capacity_pos]
    omega

/-- The slot on which a timed pop waits is ready exactly if one element more than the pop
asks for is published; a pop of the whole ring finds it ready never. -/
theorem timed_ready_iff (h : Inv s) (rests : ∀ t k, ¬(s.pc t).Holds .cons k) {num : Nat}
    (fits : num ≤ s.q.capacity) :
    u16 (s.q.futex (s.q.slotIndex (s.q.nextPopIndex + num))) =
        s.q.expectedVersion .cons (s.q.nextPopIndex + num) ↔
      num < s.q.capacity ∧ Published s (s.q.nextPopIndex + num) := by
  have pos := h.sized.capacity_pos
  have word := h.word ((s.q.nextPopIndex + num) % s.q.capacity) (Nat.mod_lt _ pos)
  rw [version] at word
  rw [h.sized.expectedVersion_eq, h.sized.slotIndex_eq, word, Published]
  obtain part | rfl := Nat.lt_or_eq_of_le fits
  · obtain ⟨low, high⟩ := h.ver_between rests (Nat.le_add_right _ num) (by omega)
    simp only [phase, u16] at low high ⊢
    omega
  · -- the slot still waits for the push or the pop of the round before
    obtain ⟨low, high⟩ := h.ver_between rests le_rfl (show s.q.nextPopIndex < _ by omega)
    rw [Nat.add_mod_right]
    simp only [phase, u16, Nat.add_div_right _ pos] at low high ⊢
    omega

end Inv

/-! ## What the steps of other threads leave alone -/

/-- No step takes a publication back, and a thread that works on one side leaves the next
index of the other side alone. -/
structure Grows (s s' : State Tid α) (u : Tid) : Prop where
  ver : ∀ x, s.hist.ver x ≤ s'.hist.ver x
  next : ∀ σ, (∀ c, (s.pc u).call? = some c → c.side ≠ σ) → s'.q.nextIndex σ = s.q.nextIndex σ

theorem Published.step {s s' : State Tid α} {u : Tid} {k : Nat} (h : Published s k)
    (grows : Grows s s' u) (capacity : s'.q.capacity = s.q.capacity) : Published s' k := by
  rw [Published, capacity]
  exact Nat.lt_of_lt_of_le h (grows.ver _)

theorem nextIndex_setNextIndex_of_ne (q : BoundedQueue α) {σ τ : Side} (ne : σ ≠ τ) (index : Nat) :
    (q.setNextIndex σ index).nextIndex τ = q.nextIndex τ := by
  cases σ <;> cases τ <;> first | rfl | exact absurd rfl ne

section Frame

variable [DecidableEq Tid] {s s' : State Tid α} {u : Tid}

theorem advance_grows (hs : s.advance u = some s') : Grows s s' u := by
  have same : ∀ r : State Tid α, r.hist.ver = s.hist.ver → r.q.nextIndex = s.q.nextIndex →
      Grows s r u := fun r ver next => ⟨fun x => by rw [ver], fun σ _ => by rw [next]⟩
  have claims : ∀ (r : State Tid α) (c : Call α) (index : Nat), (s.pc u).call? = some c →
      r.hist.ver = s.hist.ver → r.q = s.q.setNextIndex c.side index → Grows s r u :=
    fun r c index call ver q => ⟨fun x => by rw [ver], fun σ other => by
      rw [q, nextIndex_setNextIndex_of_ne _ (other c call)]⟩
  unfold State.advance at hs
  cases hp : s.pc u with
  | idle | returned => simp only [hp] at hs; cases hs
  | fetchAdd c =>
    simp only [hp, Option.some.injEq] at hs
    subst hs
    exact claims _ c _ (by rw [hp]; rfl) rfl rfl
  | wait j i w =>
    simp only [hp] at hs
    unfold State.advanceWait at hs
    cases w <;> simp only at hs <;> (try split_ifs at hs) <;> cases hs <;>
      exact same _ rfl (by funext σ; cases σ <;> rfl)
  | tryClaim j =>
    simp only [hp] at hs
    split_ifs at hs <;> cases hs
    · exact claims _ j.call _ (by rw [hp]; rfl) rfl rfl
    · exact same _ rfl rfl
    · exact same _ rfl rfl
  | publish j i =>
    have grown : ∀ slot x, s.hist.ver x ≤ (s.hist.publish slot).ver x := by
      intro slot x
      by_cases here : x = slot
      · subst here; simp [History.publish]
      · simp [History.publish, here]
    simp only [hp] at hs
    split_ifs at hs <;> cases hs <;>
      exact ⟨grown _, fun σ _ => by cases σ <;> rfl⟩
  | loadIndex c | callback j | wakeAll j i =>
    simp only [hp, Option.some.injEq] at hs
    subst hs
    exact same _ rfl (by funext σ; cases σ <;> rfl)
  | tryCheck j i | tryReload j | wakeLoad j i | wakeClear j i word =>
    simp only [hp] at hs
    split_ifs at hs <;> cases hs <;> exact same _ rfl (by funext σ; cases σ <;> rfl)

theorem step_grows {m : Move α} (hs : s.step (u, m) = some s') : Grows s s' u := by
  have same : ∀ p, s' = s.goto u p → Grows s s' u := by
    rintro p rfl
    exact ⟨fun _ => le_rfl, fun _ _ => rfl⟩
  cases m with
  | call c =>
    simp only [State.step, State.enter] at hs
    split at hs <;> cases hs
    all_goals exact same _ rfl
  | step => exact advance_grows hs
  | weakFail =>
    simp only [State.step] at hs
    split at hs
    · split_ifs at hs
      cases hs
      exact same _ rfl
    · cases hs
  | spurious =>
    simp only [State.step] at hs
    split at hs
    · cases hs
      exact same _ rfl
    · cases hs

/-- The ring of the queue keeps its size. -/
theorem Inv.capacity_step {m : Move α} (h : Inv s) (h' : Inv s')
    (hs : s.step (u, m) = some s') : s'.q.capacity = s.q.capacity := by
  rw [h.sized.capacity_eq, h'.sized.capacity_eq, (State.step_effect hs).1.2]

end Frame

/-! ## A batch pop that finds all its elements -/

/-- A part of a `try_pop_n` that asks for `num` elements and lacks none so far. -/
structure Job.Whole (j : Job α) (num : Nat) : Prop where
  side : j.call.side = .cons
  batch : j.call.batch ≠ none
  trying : j.call.trying = true
  all : j.moved + j.num + j.rest = num

/-- Where a `try_pop_n` is that will pop `num` elements: those that it has not claimed yet
are published. -/
def Pc.Full (s : State Tid α) (num : Nat) : Pc α → Prop
  | .loadIndex c => c.side = .cons ∧ c.batch = some num ∧ c.trying = true ∧ Enough s num
  | .tryCheck j _ | .tryClaim j =>
    j.Whole num ∧ j.index = s.q.nextPopIndex ∧ Enough s (j.num + j.rest)
  | .callback j | .publish j _ | .wakeLoad j _ | .wakeClear j _ _ | .wakeAll j _ =>
    j.Whole num ∧ j.index + j.num = s.q.nextPopIndex ∧ Enough s j.rest
  | .returned _ moved => moved = num
  | .idle | .fetchAdd _ | .wait _ _ _ | .tryReload _ => False

section Full

variable {s s' : State Tid α} {j : Job α} {num i : Nat}

/-- What the consumer knows stays true when nobody else pops. -/
theorem Pc.Full.mono {p : Pc α} (h : p.Full s num) (next : s'.q.nextPopIndex = s.q.nextPopIndex)
    (keep : ∀ k, Published s k → Published s' k) : p.Full s' num := by
  have enough : ∀ n, Enough s n → Enough s' n := fun n h i hi => by
    rw [next]; exact keep _ (h i hi)
  cases p with
  | loadIndex c => exact ⟨h.1, h.2.1, h.2.2.1, enough _ h.2.2.2⟩
  | tryCheck j i | tryClaim j => exact ⟨h.1, h.2.1.trans next.symm, enough _ h.2.2⟩
  | callback j | publish j i | wakeLoad j i | wakeClear j i word | wakeAll j i =>
    exact ⟨h.1, h.2.1.trans next.symm, enough _ h.2.2⟩
  | returned c moved => exact h
  | idle | fetchAdd c | wait j i w | tryReload j => exact h

/-- A part starts whose elements are all published. -/
theorem full_startTry (whole : j.Whole num) (index : j.index = s.q.nextPopIndex)
    (enough : Enough s (j.num + j.rest)) (last : j.num = 0 → j.rest = 0) :
    j.startTry.Full s num := by
  have all := whole.all
  unfold Job.startTry
  split_ifs with none
  · have := last none
    exact show j.moved = num by omega
  · exact ⟨whole, index, enough⟩

/-- A part is done. -/
theorem full_finish (whole : j.Whole num) (index : j.index + j.num = s.q.nextPopIndex)
    (enough : Enough s j.rest) : j.finish.Full s num := by
  have all := whole.all
  unfold Job.finish
  rw [if_pos whole.trying]
  split_ifs with last
  · exact show j.moved + j.num = num by omega
  · refine full_startTry ⟨whole.side, whole.batch, whole.trying, ?_⟩ index enough fun _ => rfl
    simp only [Job.second]
    omega

theorem full_nextWake (whole : j.Whole num) (index : j.index + j.num = s.q.nextPopIndex)
    (enough : Enough s j.rest) : (j.nextWake i).Full s num := by
  unfold Job.nextWake
  split_ifs
  · exact ⟨whole, index, enough⟩
  · exact full_finish whole index enough

/-- The split at the end of the ring loses no ticket. -/
theorem job_all {q : BoundedQueue α} (sized : q.Sized) (c : Call α) (index : Nat) :
    (c.job q index).index = index ∧ (c.job q index).moved = 0 ∧
      (c.job q index).num + (c.job q index).rest = c.num ∧
        ((c.job q index).num = 0 → (c.job q index).rest = 0) := by
  have later := sized.lt_nextRoundBeginIndex index
  unfold Call.job
  simp only
  split_ifs with fits
  · exact ⟨rfl, rfl, rfl, fun _ => rfl⟩
  · exact ⟨rfl, rfl, by simp only; omega, fun none => by simp only at none; omega⟩

/-- The slot of a published ticket that is not claimed yet is ready for its pop. -/
theorem Inv.check_ready (h : Inv s) (ok : JobOk s.q.capacity j) (side : j.call.side = .cons)
    (hi : i < j.num) (index : j.index = s.q.nextPopIndex)
    (published : Published s (s.q.nextPopIndex + i)) :
    j.expected s.q = s.q.version (j.slot s.q + i) := by
  have fresh := h.fresh .cons (s.q.nextPopIndex + i) (Nat.le_add_right _ i)
  have word := h.word ((s.q.nextPopIndex + i) % s.q.capacity) (Nat.mod_lt _ h.sized.capacity_pos)
  rw [h.expected_eq ok hi, h.slot_add ok hi, side, index, word]
  rw [Published] at published
  simp only [phase] at fresh published ⊢
  congr 1
  omega

variable [DecidableEq Tid] {consumer : Tid}

/-- The consumer goes on with a batch pop that finds all its elements. -/
theorem Inv.advance_full (h : Inv s) (full : (s.pc consumer).Full s num)
    (hs : s.advance consumer = some s') : (s'.pc consumer).Full s' num := by
  have loc := h.locals consumer
  have goto : ∀ p : Pc α, p.Full s num → ((s.goto consumer p).pc consumer).Full
      (s.goto consumer p) num := fun p full => by
    simp only [State.goto, Function.update_self]
    exact full.mono rfl fun _ => id
  unfold State.advance at hs
  cases hp : s.pc consumer with
  | idle | fetchAdd c | wait j i w | tryReload j =>
    rw [hp] at full
    exact full.elim
  | returned c moved => simp only [hp] at hs; cases hs
  | loadIndex c =>
    rw [hp] at full
    obtain ⟨side, batch, trying, enough⟩ := full
    simp only [hp, Option.some.injEq] at hs
    subst hs
    obtain ⟨index, moved, all, last⟩ := job_all h.sized c (s.q.nextIndex c.side)
    have asks : c.num = num := by rw [Call.num, batch]; rfl
    refine goto _ (full_startTry ⟨?_, ?_, ?_, by omega⟩ ?_ ?_ last)
    · rwa [job_call]
    · rw [job_call, batch]
      exact fun eq => by cases eq
    · rwa [job_call]
    · rw [index, side]; rfl
    · rwa [all, asks]
  | tryCheck j i =>
    rw [hp] at full loc
    obtain ⟨whole, index, enough⟩ := full
    obtain ⟨ok, -, lt, -⟩ := loc
    have ready := h.check_ready ok whole.side lt index (enough i (by omega))
    simp only [hp, ne_eq, ready, not_true_eq_false, if_false] at hs
    split_ifs at hs <;> cases hs
    · exact goto _ ⟨whole, index, enough⟩
    · exact goto _ ⟨whole, index, enough⟩
  | tryClaim j =>
    rw [hp] at full
    obtain ⟨whole, index, enough⟩ := full
    have current : s.q.nextIndex j.call.side = j.index := by rw [whole.side, index]; rfl
    simp only [hp, current, if_true, Option.some.injEq] at hs
    subst hs
    have next : (s.q.setNextIndex j.call.side (j.index + j.num)).nextPopIndex =
        j.index + j.num := by rw [whole.side]; rfl
    simp only [Function.update_self]
    refine ⟨whole, next.symm, fun k hk => ?_⟩
    have published := enough (j.num + k) (by omega)
    simp only [Published, setNextIndex_capacity, History.claim_ver, next] at published ⊢
    rwa [index, Nat.add_assoc]
  | callback j =>
    rw [hp] at full
    obtain ⟨whole, index, enough⟩ := full
    simp only [hp, Option.some.injEq] at hs
    subst hs
    simp only [Function.update_self]
    split_ifs
    · exact full_finish whole index enough
    · exact ⟨whole, index, enough⟩
  | publish j i =>
    have grows : Grows s s' consumer := advance_grows (by unfold State.advance; exact hs)
    rw [hp] at full
    obtain ⟨whole, index, enough⟩ := full
    simp only [hp, whole.batch, false_and, if_false, Option.some.injEq] at hs
    subst hs
    simp only [Function.update_self]
    refine Pc.Full.mono (s := s) ?_ rfl fun k published => published.step grows rfl
    split_ifs
    · exact ⟨whole, index, enough⟩
    · exact ⟨whole, index, enough⟩
    · exact full_finish whole index enough
  | wakeLoad j i =>
    rw [hp] at full
    obtain ⟨whole, index, enough⟩ := full
    simp only [hp] at hs
    split_ifs at hs <;> cases hs
    · exact goto _ (full_nextWake whole index enough)
    · exact goto _ (full_nextWake whole index enough)
    · exact goto _ ⟨whole, index, enough⟩
  | wakeClear j i word =>
    rw [hp] at full
    obtain ⟨whole, index, enough⟩ := full
    simp only [hp] at hs
    split_ifs at hs <;> cases hs
    · simp only [State.goto, Function.update_self]
      exact ⟨whole, index, enough⟩
    · exact goto _ (full_nextWake whole index enough)
  | wakeAll j i =>
    rw [hp] at full
    obtain ⟨whole, index, enough⟩ := full
    simp only [hp, Option.some.injEq] at hs
    subst hs
    simp only [Function.update_self]
    exact full_nextWake whole index enough

end Full

/-! ## Runs with one consumer -/

/-- What the consumer knows in a timed pop. -/
def Timed.Ok (consumer : Tid) (s : State Tid α) : Timed → Prop
  | .out => True
  | .wait num index _ w =>
    (s.pc consumer).Rests ∧ num ≤ s.q.capacity ∧ index = s.q.nextPopIndex + num ∧
      w.Ok (s.q.expectedVersion .cons index)
  | .tryPop num enough => enough = true → (s.pc consumer).Full s num

/-- The invariant of a queue with one consumer. -/
structure TimedInv (consumer : Tid) (s : TimedState Tid α) : Prop where
  inv : Inv s.shared
  roles : ∀ t ≠ consumer, ∀ c, (s.shared.pc t).call? = some c → c.side = .prod
  timed : s.timed.Ok consumer s.shared

theorem Pc.Rests.awaken {p : Pc α} (h : p.Rests) (q : BoundedQueue α) (slot : Nat) :
    p.awaken q slot = p := by
  cases p <;> first | rfl | exact h.elim

theorem Pc.Full.awaken {s : State Tid α} {num : Nat} {p : Pc α} (h : p.Full s num)
    (q : BoundedQueue α) (slot : Nat) : p.awaken q slot = p := by
  cases p <;> first | rfl | exact h.elim

theorem Timed.Ok.awaken {consumer : Tid} {s : State Tid α} {w : Timed} (h : w.Ok consumer s)
    (q : BoundedQueue α) (slot : Nat) : (w.awaken q slot).Ok consumer s := by
  unfold Timed.awaken
  split
  · obtain ⟨rests, fits, index, ok⟩ := h
    refine ⟨rests, fits, index, ?_⟩
    split_ifs
    · trivial
    · exact ok
  · exact h

namespace TimedInv

variable {consumer : Tid} {s s' : TimedState Tid α}

/-- Nobody pops while the consumer rests. -/
theorem not_holds (h : TimedInv consumer s) (rests : (s.shared.pc consumer).Rests) (t : Tid)
    (k : Nat) : ¬(s.shared.pc t).Holds .cons k := by
  intro holds
  by_cases ht : t = consumer
  · subst ht
    cases hp : s.shared.pc t <;> rw [hp] at rests holds <;> first | exact rests | exact holds
  · obtain ⟨c, call, side⟩ := holds.call?
    rw [h.roles t ht c call] at side
    cases side

/-- The consumer starts a round of its wait. -/
theorem block (h : TimedInv consumer s) {num index word : Nat} {wake : Bool} {w : Wait}
    (at_ : s.timed = .wait num index wake w)
    (differs : u16 word ≠ s.shared.q.expectedVersion .cons index) :
    TimedInv consumer (s.block num index wake word) := by
  have ok := h.timed
  rw [at_] at ok
  obtain ⟨rests, fits, eq, -⟩ := ok
  refine ⟨h.inv, h.roles, rests, fits, eq, ?_⟩
  split_ifs with low
  · exact ⟨low, differs⟩
  · exact ⟨not_le.mp low, differs⟩

variable [DecidableEq Tid]

/-- What the consumer knows stays true in the steps of the others. -/
theorem ok_other {s s' : State Tid α} {u : Tid} {m : Move α} {w : Timed} (h : w.Ok consumer s)
    (inv : Inv s) (inv' : Inv s') (hs : s.step (u, m) = some s') (hu : u ≠ consumer)
    (pushes : ∀ c, (s.pc u).call? = some c → c.side = .prod) : w.Ok consumer s' := by
  obtain ⟨same, effect⟩ := State.step_effect hs
  have grows := step_grows hs
  have capacity := inv.capacity_step inv' hs
  have next : s'.q.nextPopIndex = s.q.nextPopIndex :=
    grows.next .cons fun c call side => by rw [pushes c call] at side; cases side
  cases w with
  | out => trivial
  | wait num index wake w =>
    obtain ⟨rests, fits, eq, ok⟩ := h
    have expected : s'.q.expectedVersion .cons index = s.q.expectedVersion .cons index := by
      simp only [expectedVersion, same.2]
    have pc : s'.pc consumer = s.pc consumer := by
      obtain eq | ⟨j, i, -, eq⟩ := effect.others hu.symm
      · exact eq
      · rw [eq, rests.awaken]
    exact ⟨pc ▸ rests, capacity ▸ fits, next ▸ eq, expected ▸ ok⟩
  | tryPop num enough =>
    intro found
    have full := h found
    have pc : s'.pc consumer = s.pc consumer := by
      obtain eq | ⟨j, i, -, eq⟩ := effect.others hu.symm
      · exact eq
      · rw [eq, full.awaken]
    rw [pc]
    exact full.mono next fun k published => published.step grows capacity

/-- The consumer leaves its wait. -/
theorem leave (h : TimedInv consumer s) {num : Nat} {wake : Bool} (spans : Spans s.shared)
    (fits : num ≤ s.shared.q.capacity) (hs : s.leave consumer num wake = some s') :
    TimedInv consumer s' ∧ ∃ enough, s'.timed = .tryPop num enough := by
  obtain ⟨shared, entered, rfl⟩ := Option.map_eq_some_iff.mp hs
  have step : s.shared.step (consumer, .call (Call.tryPopN s.shared.q num wake)) = some shared :=
    entered
  refine ⟨⟨h.inv.step spans (fun c eq => by cases eq; exact fits) step, fun t ht c hc => ?_,
    fun found => ?_⟩, _, rfl⟩
  · obtain before | ⟨here, -⟩ := State.call?_of_step step hc
    · exact h.roles t ht c before
    · exact absurd here ht
  · have goto : shared = s.shared.goto consumer (.loadIndex (Call.tryPopN s.shared.q num wake)) := by
      unfold State.enter at entered
      split at entered <;> cases entered <;> rfl
    have enough : Enough s.shared num := of_decide_eq_true found
    rw [goto]
    simp only [State.goto, Function.update_self]
    exact ⟨rfl, rfl, rfl, enough⟩

/-- A consumer that does not wait goes on with its call. -/
theorem ok_own {shared : State Tid α} {m : Move α} (h : TimedInv consumer s)
    (waits : ∀ num index wake w, s.timed ≠ .wait num index wake w) (goes : ∀ c, m ≠ .call c)
    (step : s.shared.step (consumer, m) = some shared) : s.timed.Ok consumer shared := by
  have ok := h.timed
  cases timed : s.timed with
  | out => trivial
  | wait num index wake w => exact absurd timed (waits num index wake w)
  | tryPop num enough =>
    intro found
    rw [timed] at ok
    have full := ok found
    cases m with
    | call c => exact absurd rfl (goes c)
    | step => exact h.inv.advance_full full step
    | weakFail =>
      simp only [State.step] at step
      split at step
      · rename_i hp
        rw [hp] at full
        rw [if_neg full.1.batch] at step
        cases step
      · cases step
    | spurious =>
      simp only [State.step] at step
      split at step
      · rename_i hp
        rw [hp] at full
        exact full.elim
      · cases step

/-- One step. -/
theorem step (h : TimedInv consumer s) {m : TimedMove Tid α} (spans : Spans s.shared)
    (small : ∀ t c, m = .thread t (.call c) → c.num ≤ s.shared.q.capacity)
    (hs : s.step consumer m = some s') : TimedInv consumer s' := by
  have ok := h.timed
  have roles : ∀ t ≠ consumer, ∀ c, (s'.shared.pc t).call? = some c → c.side = .prod := by
    intro t ht c hc
    obtain before | rfl := call?_of_timedStep hs ht hc
    · exact h.roles t ht c before
    · cases step_cases hs with
      | other t m shared ht pushes step eq => exact pushes c rfl
      | call | own => exact absurd rfl ht
      | leave m own | reload m own => exact absurd own ht
  cases step_cases hs with
  | other t m shared ht pushes step eq =>
    subst eq
    have inv := h.inv.step spans (fun c eq => small t c (congrArg (TimedMove.thread t) eq)) step
    have ok := ok_other ok h.inv inv step ht (h.roles t ht)
    refine ⟨inv, roles, ?_⟩
    unfold Timed.after
    split
    · exact ok.awaken _ _
    · exact ok
  | call c shared waits step eq =>
    subst eq
    exact ⟨h.inv.step spans (fun c eq => small consumer c (congrArg (TimedMove.thread consumer) eq)) step,
      roles, trivial⟩
  | own m shared waits goes step eq =>
    subst eq
    exact ⟨h.inv.step spans (fun c eq => absurd eq (goes c)) step,
      roles, h.ok_own waits goes step⟩
  | enter num wake waits rests range eq =>
    subst eq
    exact ⟨h.inv, h.roles, rests, range.2, rfl, trivial⟩
  | leave m mine num index wake w at_ hs =>
    rw [at_] at ok
    exact (h.leave spans ok.2.1 hs).1
  | block num index wake w word at_ differs eq =>
    subst eq
    exact h.block at_ differs
  | mark num index wake word at_ same eq =>
    subst eq
    rw [at_] at ok
    obtain ⟨rests, fits, eq, low, differs⟩ := ok
    have keeps : u16 (word + 65536) = u16 word := by rw [u16, Nat.add_mod_right, u16]
    refine ⟨h.inv.rewriteWord ?_, h.roles, rests, fits, eq, by omega, ?_⟩
    · rw [keeps, version, same]
    · rw [keeps]; exact differs
  | sleep num index wake word at_ same eq =>
    subst eq
    rw [at_] at ok
    exact ⟨h.inv, h.roles, ok⟩
  | reload m mine num index wake w at_ eq =>
    subst eq
    rw [at_] at ok
    exact ⟨h.inv, h.roles, ok.1, ok.2.1, ok.2.2.1, trivial⟩

end TimedInv

end Fuxi.Base.BoundedQueue
