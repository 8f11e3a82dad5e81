import Fuxi.Base.BoundedQueue.Interleaving

/-!
# Wake-ups of the slot futex

A waiter marks the high half of the futex word of its slot and sleeps as long as the word
stays the same. Who advances the version either exchanges the whole word, which takes the
mark away, or stores the low half and looks for the mark afterwards. Nobody takes a mark
away without waking all who sleep on the slot, and of several who have stored a version the
last one finds the mark.
-/

namespace Fuxi.Base.BoundedQueue

open Lib

variable {α Tid : Type*}

/-! ## What a step does to the words -/

/-- The words of a waiter: it marks a word without a mark, it sleeps on a marked word, and
neither word has the version that it waits for. -/
def Wait.Ok (version : Nat) : Wait → Prop
  | .mark word => word ≤ 65535 ∧ u16 word ≠ version
  | .sleep word | .asleep word => 65535 < word ∧ u16 word ≠ version
  | .load | .reload | .spin => True

/-- The words of a thread, and the bounds of its loops. -/
def Pc.Ok (q : BoundedQueue α) : Pc α → Prop
  | .wait j _ w => w.Ok (j.expected q)
  | .publish j i => i < j.num
  | _ => True

/-- The slot at position `i` has the version that the part has stored. -/
def Job.Stored (j : Job α) (q : BoundedQueue α) (slot i : Nat) : Prop :=
  j.slot q + i = slot ∧ u16 (q.futex slot) = u16 (j.expected q + 1)

/-- The thread will wake all who sleep on the slot: it is about to do so, or it has stored
the version that the marked word still has and looks at the word later. -/
def Pc.Covers (q : BoundedQueue α) (slot : Nat) : Pc α → Prop
  | .publish j i =>
    j.call.batch ≠ none ∧ 65535 < q.futex slot ∧ ∃ k < i, k < j.num ∧ j.Stored q slot k
  | .wakeLoad j i => 65535 < q.futex slot ∧ ∃ k < j.num, i ≤ k ∧ j.Stored q slot k
  | .wakeClear j i word =>
    65535 < q.futex slot ∧
      (j.slot q + i = slot ∧ q.futex slot = word ∨ ∃ k < j.num, i < k ∧ j.Stored q slot k)
  | .wakeAll j i =>
    j.slot q + i = slot ∨ 65535 < q.futex slot ∧ ∃ k < j.num, i < k ∧ j.Stored q slot k
  | _ => False

/-- A step that stores no word and wakes nobody. -/
structure Passes (q : BoundedQueue α) (old new : Pc α) : Prop where
  rests : ∀ j i, old ≠ .wakeAll j i
  sleeps : ∀ j i word, new = .wait j i (.asleep word) → q.futex (j.slot q + i) = word
  covers : ∀ slot, old.Covers q slot → new.Covers q slot
  ok : old.Ok q → new.Ok q

/-- The geometry of the queue. -/
def Same (q q' : BoundedQueue α) : Prop := q'.slotMask = q.slotMask ∧ q'.slotBits = q.slotBits

variable [DecidableEq Tid]

/-- What one step of thread `u` does to the words and to the places of the threads. -/
inductive Effect (s s' : State Tid α) (u : Tid) : Prop
  | quiet (p : Pc α) (futex : s'.q.futex = s.q.futex) (pc : s'.pc = Function.update s.pc u p)
      (passes : Passes s.q (s.pc u) p)
  | mark (j : Job α) (i : Nat) (here : s.pc u = .wait j i (.mark (s.q.futex (j.slot s.q + i))))
      (futex : s'.q.futex = Function.update s.q.futex (j.slot s.q + i)
        (s.q.futex (j.slot s.q + i) + 65536))
      (pc : s'.pc = Function.update s.pc u
        (.wait j i (.sleep (s.q.futex (j.slot s.q + i) + 65536))))
  | exchange (j : Job α) (i : Nat) (here : s.pc u = .publish j i)
      (wakes : j.call.batch = none ∧ j.call.wake = true)
      (futex : s'.q.futex = Function.update s.q.futex (j.slot s.q + i) (u16 (j.expected s.q + 1)))
      (pc : s'.pc = Function.update s.pc u
        (if s.q.futex (j.slot s.q + i) ≤ 65535 then j.finish else .wakeAll j i))
  | store (j : Job α) (i : Nat) (here : s.pc u = .publish j i)
      (late : ¬(j.call.batch = none ∧ j.call.wake = true))
      (futex : s'.q.futex = Function.update s.q.futex (j.slot s.q + i)
        (s.q.futex (j.slot s.q + i) / 65536 * 65536 + u16 (j.expected s.q + 1)))
      (pc : s'.pc = Function.update s.pc u
        (if i + 1 < j.num then .publish j (i + 1)
          else if j.call.wake then .wakeLoad j 0 else j.finish))
  | clear (j : Job α) (i : Nat) (here : s.pc u = .wakeClear j i (s.q.futex (j.slot s.q + i)))
      (futex : s'.q.futex = Function.update s.q.futex (j.slot s.q + i)
        (u16 (s.q.futex (j.slot s.q + i))))
      (pc : s'.pc = Function.update s.pc u (.wakeAll j i))
  | wakeAll (j : Job α) (i : Nat) (here : s.pc u = .wakeAll j i) (futex : s'.q.futex = s.q.futex)
      (pc : s'.pc =
        Function.update (fun v => (s.pc v).awaken s.q (j.slot s.q + i)) u (j.nextWake i))

/-- The places that do not sleep. -/
def Pc.awake : Pc α → Bool
  | .wait _ _ (.asleep _) => false
  | _ => true

section Places

variable {q : BoundedQueue α} {j : Job α}

@[simp] theorem ok_finish : j.finish.Ok q := by
  unfold Job.finish Job.startTry Job.startWait
  split_ifs <;> trivial

@[simp] theorem ok_startWait : j.startWait.Ok q := by
  unfold Job.startWait
  split_ifs <;> trivial

@[simp] theorem ok_startTry : j.startTry.Ok q := by
  unfold Job.startTry
  split_ifs <;> trivial

@[simp] theorem ok_ready (i : Nat) : (j.ready i).Ok q := by
  unfold Job.ready
  split_ifs <;> trivial

@[simp] theorem ok_nextWake (i : Nat) : (j.nextWake i).Ok q := by
  unfold Job.nextWake
  split_ifs
  · trivial
  · exact ok_finish

theorem ok_block {i word : Nat} (differs : u16 word ≠ j.expected q) : (j.block i word).Ok q := by
  unfold Job.block Pc.Ok
  split_ifs with low
  · exact ⟨low, differs⟩
  · exact ⟨not_le.mp low, differs⟩

@[simp] theorem awake_finish : j.finish.awake = true := by
  unfold Job.finish Job.startTry Job.startWait
  split_ifs <;> rfl

@[simp] theorem awake_startWait : j.startWait.awake = true := by
  unfold Job.startWait
  split_ifs <;> rfl

@[simp] theorem awake_startTry : j.startTry.awake = true := by
  unfold Job.startTry
  split_ifs <;> rfl

@[simp] theorem awake_ready (i : Nat) : (j.ready i).awake = true := by
  unfold Job.ready
  split_ifs <;> rfl

@[simp] theorem awake_block (i word : Nat) : (j.block i word).awake = true := by
  unfold Job.block
  split_ifs <;> rfl

@[simp] theorem awake_nextWake (i : Nat) : (j.nextWake i).awake = true := by
  unfold Job.nextWake
  split_ifs
  · rfl
  · exact awake_finish

/-- A step of a thread that has no wake-up ahead. -/
theorem passes_of {old new : Pc α} (none : ∀ slot, ¬old.Covers q slot)
    (awake : new.awake = true) (ok : old.Ok q → new.Ok q) : Passes q old new where
  rests j i eq := none (j.slot q + i) (by rw [eq]; exact Or.inl rfl)
  sleeps j i word eq := by rw [eq] at awake; cases awake
  covers slot h := (none slot h).elim
  ok := ok

/-- The loop over the wake-ups passes slot `i`. -/
theorem passes_nextWake {old : Pc α} {i : Nat} (rests : ∀ j i, old ≠ .wakeAll j i)
    (covers : ∀ slot, old.Covers q slot →
      65535 < q.futex slot ∧ ∃ k < j.num, i < k ∧ j.Stored q slot k) :
    Passes q old (j.nextWake i) where
  rests := rests
  sleeps k l word eq := by
    have awake := awake_nextWake (j := j) i
    rw [eq] at awake
    cases awake
  covers slot h := by
    obtain ⟨marked, k, hk, lt, stored⟩ := covers slot h
    rw [Job.nextWake, if_pos (by omega)]
    exact ⟨marked, k, hk, lt, stored⟩
  ok _ := ok_nextWake i

/-- A slot needs no wake-up if it is not marked or has another version by now. -/
theorem passes_skip {i : Nat} (need : ¬(65535 < q.futex (j.slot q + i) ∧
    u16 (q.futex (j.slot q + i)) = u16 (j.expected q + 1))) :
    Passes q (.wakeLoad j i) (j.nextWake i) := by
  refine passes_nextWake (fun _ _ => nofun) fun slot h => ?_
  obtain ⟨marked, k, hk, le, here, version⟩ := h
  refine ⟨marked, k, hk, lt_of_le_of_ne le ?_, here, version⟩
  rintro rfl
  rw [here] at need
  exact need ⟨marked, version⟩

/-- A slot that needs a wake-up. -/
theorem passes_clear {i : Nat} :
    Passes q (.wakeLoad j i) (.wakeClear j i (q.futex (j.slot q + i))) where
  rests _ _ := nofun
  sleeps k l word eq := by cases eq
  covers slot h := by
    obtain ⟨marked, k, hk, le, here, version⟩ := h
    obtain rfl | lt := Nat.eq_or_lt_of_le le
    · exact ⟨marked, Or.inl ⟨here, by rw [here]⟩⟩
    · exact ⟨marked, Or.inr ⟨k, hk, lt, here, version⟩⟩
  ok _ := trivial

/-- The mark has been taken away, or the version has been stored again. -/
theorem passes_lost {i word : Nat} (lost : q.futex (j.slot q + i) ≠ word) :
    Passes q (.wakeClear j i word) (j.nextWake i) := by
  refine passes_nextWake (fun _ _ => nofun) fun slot h => ?_
  obtain ⟨marked, ⟨rfl, same⟩ | later⟩ := h
  · exact (lost same).elim
  · exact ⟨marked, later⟩

end Places

namespace State

variable {s s' : State Tid α} {u : Tid}

/-- The steps of a thread that waits. -/
theorem advanceWait_effect {j : Job α} {i : Nat} {w : Wait} (hp : s.pc u = .wait j i w)
    (hs : s.advanceWait u j i w = some s') : Same s.q s'.q ∧ Effect s s' u := by
  have quiet : ∀ p : Pc α, p.awake = true → (w.Ok (j.expected s.q) → p.Ok s.q) →
      Same s.q (s.goto u p).q ∧ Effect s (s.goto u p) u := fun p awake ok =>
    ⟨⟨rfl, rfl⟩, .quiet p rfl rfl (hp ▸ passes_of (fun _ => id) awake ok)⟩
  cases w with
  | load =>
    simp only [advanceWait] at hs
    split_ifs at hs with ready wait <;> cases hs
    · exact quiet _ (awake_ready i) fun _ => ok_ready i
    · exact quiet _ (awake_block ..) fun _ => ok_block ready
    · exact quiet _ rfl fun _ => trivial
  | mark word =>
    simp only [advanceWait] at hs
    split_ifs at hs with same ready <;> cases hs
    · subst same
      exact ⟨⟨rfl, rfl⟩, .mark j i hp rfl rfl⟩
    · exact quiet _ (awake_ready i) fun _ => ok_ready i
    · exact quiet _ (awake_block ..) fun _ => ok_block ready
  | sleep word =>
    simp only [advanceWait] at hs
    split_ifs at hs with same <;> cases hs
    · refine ⟨⟨rfl, rfl⟩, .quiet _ rfl rfl ?_⟩
      rw [hp]
      refine ⟨fun _ _ => nofun, fun k l v eq => ?_, fun _ => id, id⟩
      cases eq
      exact same
    · exact quiet _ rfl fun _ => trivial
  | asleep word => cases hs
  | reload =>
    simp only [advanceWait] at hs
    split_ifs at hs with ready <;> cases hs
    · exact quiet _ (awake_ready i) fun _ => ok_ready i
    · exact quiet _ (awake_block ..) fun _ => ok_block ready
  | spin =>
    simp only [advanceWait] at hs
    split_ifs at hs with ready <;> cases hs
    · exact quiet _ (awake_ready i) fun _ => ok_ready i
    · exact quiet _ rfl fun _ => trivial

/-- The steps of a thread. -/
theorem advance_effect (hs : s.advance u = some s') : Same s.q s'.q ∧ Effect s s' u := by
  have quiet : ∀ {r : State Tid α} (p : Pc α), Same s.q r.q → r.q.futex = s.q.futex →
      r.pc = Function.update s.pc u p → (∀ slot, ¬(s.pc u).Covers s.q slot) → p.awake = true →
      p.Ok s.q → Same s.q r.q ∧ Effect s r u := fun p same futex pc none awake ok =>
    ⟨same, .quiet p futex pc (passes_of none awake fun _ => ok)⟩
  have next : ∀ σ index, Same s.q (s.q.setNextIndex σ index) ∧
      (s.q.setNextIndex σ index).futex = s.q.futex := by
    intro σ _
    cases σ <;> exact ⟨⟨rfl, rfl⟩, rfl⟩
  unfold State.advance at hs
  cases hp : s.pc u with
  | idle | returned => simp only [hp] at hs; cases hs
  | fetchAdd c =>
    simp only [hp, Option.some.injEq] at hs
    subst hs
    exact quiet _ (next ..).1 (next ..).2 rfl (fun _ => by rw [hp]; exact id) awake_startWait
      ok_startWait
  | wait j i w =>
    simp only [hp] at hs
    exact advanceWait_effect hp hs
  | loadIndex c =>
    simp only [hp, Option.some.injEq] at hs
    subst hs
    exact quiet _ ⟨rfl, rfl⟩ rfl rfl (fun _ => by rw [hp]; exact id) awake_startTry ok_startTry
  | tryCheck j i =>
    simp only [hp] at hs
    split_ifs at hs <;> cases hs <;>
      exact quiet _ ⟨rfl, rfl⟩ rfl rfl (fun _ => by rw [hp]; exact id) rfl trivial
  | tryReload j =>
    simp only [hp] at hs
    split_ifs at hs <;> cases hs <;>
      exact quiet _ ⟨rfl, rfl⟩ rfl rfl (fun _ => by rw [hp]; exact id) rfl trivial
  | tryClaim j =>
    simp only [hp] at hs
    split_ifs at hs <;> cases hs
    · exact quiet _ (next ..).1 (next ..).2 rfl (fun _ => by rw [hp]; exact id) rfl trivial
    · exact quiet _ ⟨rfl, rfl⟩ rfl rfl (fun _ => by rw [hp]; exact id) rfl trivial
    · exact quiet _ ⟨rfl, rfl⟩ rfl rfl (fun _ => by rw [hp]; exact id) rfl trivial
  | callback j =>
    simp only [hp, Option.some.injEq] at hs
    subst hs
    refine quiet _ ⟨rfl, rfl⟩ rfl rfl (fun _ => by rw [hp]; exact id) ?_ ?_ <;>
      by_cases none : j.num = 0
    · rw [if_pos none]; exact awake_finish
    · rw [if_neg none]; rfl
    · rw [if_pos none]; exact ok_finish
    · rw [if_neg none]; exact Nat.pos_of_ne_zero none
  | publish j i =>
    simp only [hp] at hs
    by_cases wakes : j.call.batch = none ∧ j.call.wake = true
    · rw [if_pos wakes] at hs
      cases hs
      exact ⟨⟨rfl, rfl⟩, .exchange j i hp wakes rfl rfl⟩
    · rw [if_neg wakes] at hs
      cases hs
      exact ⟨⟨rfl, rfl⟩, .store j i hp wakes rfl rfl⟩
  | wakeLoad j i =>
    simp only [hp] at hs
    split_ifs at hs with low passed <;> cases hs
    · exact ⟨⟨rfl, rfl⟩, .quiet _ rfl rfl (hp ▸ passes_skip fun need => by omega)⟩
    · exact ⟨⟨rfl, rfl⟩, .quiet _ rfl rfl (hp ▸ passes_skip fun need => passed need.2)⟩
    · exact ⟨⟨rfl, rfl⟩, .quiet _ rfl rfl (hp ▸ passes_clear)⟩
  | wakeClear j i word =>
    simp only [hp] at hs
    split_ifs at hs with same <;> cases hs
    · subst same
      exact ⟨⟨rfl, rfl⟩, .clear j i hp rfl rfl⟩
    · exact ⟨⟨rfl, rfl⟩, .quiet _ rfl rfl (hp ▸ passes_lost same)⟩
  | wakeAll j i =>
    simp only [hp, Option.some.injEq] at hs
    subst hs
    exact ⟨⟨rfl, rfl⟩, .wakeAll j i hp rfl rfl⟩

/-- The moves of a thread. -/
theorem step_effect {m : Move α} (hs : s.step (u, m) = some s') :
    Same s.q s'.q ∧ Effect s s' u := by
  have quiet : ∀ p : Pc α, (∀ slot, ¬(s.pc u).Covers s.q slot) → p.awake = true → p.Ok s.q →
      Same s.q (s.goto u p).q ∧ Effect s (s.goto u p) u := fun p none awake ok =>
    ⟨⟨rfl, rfl⟩, .quiet p rfl rfl (passes_of none awake fun _ => ok)⟩
  cases m with
  | call c =>
    simp only [State.step, enter] at hs
    split at hs <;> cases hs
    all_goals
      rename_i hp
      refine quiet _ (fun _ => by rw [hp]; exact id) ?_ ?_ <;> split_ifs <;> trivial
  | step => exact advance_effect hs
  | weakFail =>
    simp only [State.step] at hs
    split at hs
    · rename_i hp
      split_ifs at hs
      cases hs
      exact quiet _ (fun _ => by rw [hp]; exact id) rfl trivial
    · cases hs
  | spurious =>
    simp only [State.step] at hs
    split at hs
    · rename_i hp
      cases hs
      exact quiet _ (fun _ => by rw [hp]; exact id) rfl trivial
    · cases hs

end State

/-! ## Which calls are made -/

/-- The call that a thread is in, or the last one. -/
def Pc.call? : Pc α → Option (Call α)
  | .idle => none
  | .fetchAdd c | .loadIndex c | .returned c _ => some c
  | .wait j _ _ | .tryCheck j _ | .tryReload j | .tryClaim j | .callback j | .publish j _
  | .wakeLoad j _ | .wakeClear j _ _ | .wakeAll j _ => some j.call

section Calls

variable {q : BoundedQueue α} (j : Job α)

@[simp] theorem startWait_call? : j.startWait.call? = some j.call := by
  unfold Job.startWait; split_ifs <;> rfl

@[simp] theorem startTry_call? : j.startTry.call? = some j.call := by
  unfold Job.startTry; split_ifs <;> rfl

@[simp] theorem finish_call? : j.finish.call? = some j.call := by
  unfold Job.finish
  split_ifs
  · rfl
  · exact startTry_call? _
  · exact startWait_call? _

@[simp] theorem ready_call? (i : Nat) : (j.ready i).call? = some j.call := by
  unfold Job.ready; split_ifs <;> rfl

@[simp] theorem nextWake_call? (i : Nat) : (j.nextWake i).call? = some j.call := by
  unfold Job.nextWake
  split_ifs
  · rfl
  · exact finish_call? j

@[simp] theorem awaken_call? (slot : Nat) (p : Pc α) : (p.awaken q slot).call? = p.call? := by
  unfold Pc.awaken
  split
  · split_ifs <;> rfl
  · rfl

@[simp] theorem job_call (c : Call α) (index : Nat) : (c.job q index).call = c := by
  unfold Call.job
  simp only
  split_ifs <;> rfl

end Calls

namespace State

variable {s s' : State Tid α} {u : Tid}

/-- A thread goes on with its call. -/
theorem advance_call? (hs : s.advance u = some s') (v : Tid) :
    (s'.pc v).call? = (s.pc v).call? := by
  have own : ∀ {r : State Tid α} {c : Call α} (p : Pc α), r.pc = Function.update s.pc u p →
      (s.pc u).call? = some c → p.call? = some c → (r.pc v).call? = (s.pc v).call? := by
    intro r c p pc mine same
    rw [pc]
    by_cases hv : v = u
    · subst hv; rw [Function.update_self, same, mine]
    · rw [Function.update_of_ne hv]
  unfold State.advance at hs
  cases hp : s.pc u with
  | idle | returned => simp only [hp] at hs; cases hs
  | fetchAdd c =>
    simp only [hp, Option.some.injEq] at hs
    subst hs
    exact own _ rfl (by rw [hp]; rfl) (by rw [startWait_call?, job_call])
  | loadIndex c =>
    simp only [hp, Option.some.injEq] at hs
    subst hs
    exact own _ rfl (by rw [hp]; rfl) (by rw [startTry_call?, job_call])
  | wait j i w =>
    have mine : (s.pc u).call? = some j.call := by rw [hp]; rfl
    simp only [hp] at hs
    unfold State.advanceWait at hs
    cases w <;> simp only at hs <;> (try split_ifs at hs) <;> cases hs <;>
      refine own _ rfl mine ?_ <;> first | exact ready_call? j i | rfl
  | callback j =>
    simp only [hp, Option.some.injEq] at hs
    subst hs
    refine own _ rfl (by rw [hp]; rfl) ?_
    split_ifs
    · exact finish_call? j
    · rfl
  | wakeAll j i =>
    simp only [hp, Option.some.injEq] at hs
    subst hs
    simp only
    by_cases hv : v = u
    · subst hv
      rw [Function.update_self, nextWake_call?, hp]
      rfl
    · rw [Function.update_of_ne hv, awaken_call?]
  | tryCheck j i | tryReload j | tryClaim j | publish j i | wakeLoad j i | wakeClear j i word =>
    have mine : (s.pc u).call? = some j.call := by rw [hp]; rfl
    simp only [hp] at hs
    split_ifs at hs <;> cases hs <;> refine own _ rfl mine ?_ <;>
      first | exact nextWake_call? j i | exact finish_call? j | rfl

/-- All calls that are made obey a rule. -/
def Obeys (P : Call α → Prop) (s : State Tid α) : Prop := ∀ t c, (s.pc t).call? = some c → P c

/-- The calls that the threads are in after a step are those before it and the one made. -/
theorem call?_of_step {m : Move α} (hs : s.step (u, m) = some s') {v : Tid} {c : Call α}
    (hc : (s'.pc v).call? = some c) : (s.pc v).call? = some c ∨ v = u ∧ m = .call c := by
  have own : ∀ p : Pc α, s' = s.goto u p →
      (∀ c, p.call? = some c → (s.pc u).call? = some c ∨ m = .call c) →
        (s.pc v).call? = some c ∨ v = u ∧ m = .call c := by
    rintro p rfl mine
    by_cases hv : v = u
    · subst hv
      exact (mine c (by simpa [goto] using hc)).imp_right fun made => ⟨rfl, made⟩
    · exact Or.inl (by simpa [goto, hv] using hc)
  cases m with
  | call d =>
    simp only [State.step, enter] at hs
    split at hs <;> cases hs
    all_goals
      refine own _ rfl fun c hc => Or.inr ?_
      split_ifs at hc <;> cases hc <;> rfl
  | step => exact Or.inl (advance_call? hs v ▸ hc)
  | weakFail =>
    simp only [State.step] at hs
    split at hs
    · rename_i hp
      split_ifs at hs
      cases hs
      exact own _ rfl fun c hc => Or.inl (by rw [hp]; exact hc)
    · cases hs
  | spurious =>
    simp only [State.step] at hs
    split at hs
    · rename_i hp
      cases hs
      exact own _ rfl fun c hc => Or.inl (by rw [hp]; exact hc)
    · cases hs

theorem Obeys.step {P : Call α → Prop} (h : s.Obeys P) {m : Move α}
    (made : ∀ c, m = .call c → P c) (hs : s.step (u, m) = some s') : s'.Obeys P := by
  intro v c hc
  obtain before | ⟨-, now⟩ := call?_of_step hs hc
  · exact h v c before
  · exact made c now

theorem obeys_of_reach {P : Call α → Prop} {zero : α} {num : Nat}
    {ok : State Tid α → Tid × Move α → State Tid α → Prop}
    (made : ∀ s u c s', ok s (u, .call c) s' → P c) (h : (machine Tid zero num).Reach ok s) :
    s.Obeys P := by
  induction h with
  | start h => exact h ▸ fun t c hc => by cases hc
  | @step s s' i _ move side ih =>
    obtain ⟨u, m⟩ := i
    refine ih.step (fun c eq => ?_) move
    subst eq
    exact made _ _ _ _ side

end State

/-! ## No wake-up is lost -/

section Same

variable {q q' : BoundedQueue α} {p : Pc α} {slot : Nat}

theorem Same.slot_eq (h : Same q q') (j : Job α) : j.slot q' = j.slot q := by
  simp only [Job.slot, slotIndex, h.1]

theorem Same.expected_eq (h : Same q q') (j : Job α) : j.expected q' = j.expected q := by
  simp only [Job.expected]
  cases j.call.side <;> simp only [expectedVersion, h.2]

theorem Same.ok (h : Same q q') (ok : p.Ok q) : p.Ok q' := by
  cases p with
  | wait j i w => simpa only [Pc.Ok, h.expected_eq] using ok
  | publish j i => exact ok
  | _ => trivial

theorem Same.covers (h : Same q q') (word : q'.futex slot = q.futex slot) :
    p.Covers q' slot ↔ p.Covers q slot := by
  cases p <;> simp only [Pc.Covers, Job.Stored, h.slot_eq, h.expected_eq, word]

theorem awaken_covers {k : Nat} : (p.awaken q k).Covers q' slot ↔ p.Covers q' slot := by
  unfold Pc.awaken
  split
  · split_ifs <;> rfl
  · rfl

theorem asleep_of_awaken {k i word : Nat} {j : Job α}
    (h : p.awaken q k = .wait j i (.asleep word)) :
    p = .wait j i (.asleep word) ∧ j.slot q + i ≠ k := by
  unfold Pc.awaken at h
  split at h
  · split_ifs at h with here
    · cases h
    · cases h
      exact ⟨rfl, here⟩
  · rename_i other
    exact (other j i word h).elim

theorem ok_awaken {k : Nat} (ok : p.Ok q) : (p.awaken q k).Ok q := by
  unfold Pc.awaken
  split
  · split_ifs
    · trivial
    · exact ok
  · exact ok

/-- The thread is about to wake all who sleep on the slot. -/
def Pc.Wakes (q : BoundedQueue α) (slot : Nat) (p : Pc α) : Prop :=
  ∃ j i, p = .wakeAll j i ∧ j.slot q + i = slot

theorem Pc.Wakes.covers (h : p.Wakes q slot) : p.Covers q slot := by
  obtain ⟨j, i, rfl, here⟩ := h
  exact Or.inl here

/-- A slot without a mark is only woken by a thread that is about to do so. -/
theorem Pc.Covers.wakes (h : p.Covers q slot) (low : q.futex slot ≤ 65535) : p.Wakes q slot := by
  cases p with
  | wakeAll j i =>
    obtain here | ⟨marked, -⟩ := h
    · exact ⟨j, i, rfl, here⟩
    · omega
  | publish j i => exact absurd h.2.1 (not_lt.mpr low)
  | wakeLoad j i | wakeClear j i word => exact absurd h.1 (not_lt.mpr low)
  | _ => exact h.elim

theorem Same.wakes (h : Same q q') (w : p.Wakes q slot) : p.Wakes q' slot := by
  obtain ⟨j, i, rfl, here⟩ := w
  exact ⟨j, i, rfl, by rw [h.slot_eq]; exact here⟩

end Same

/-- The other threads in a step of `u`. -/
theorem Effect.others {s s' : State Tid α} {u : Tid} (h : Effect s s' u) {v : Tid} (hv : v ≠ u) :
    s'.pc v = s.pc v ∨ ∃ j i, s.pc u = .wakeAll j i ∧
      s'.pc v = (s.pc v).awaken s.q (j.slot s.q + i) := by
  cases h with
  | wakeAll j i here futex pc => exact Or.inr ⟨j, i, here, by rw [pc, Function.update_of_ne hv]⟩
  | _ => left; simp_all

/-- The slot on which a thread sleeps, and the word that it has seen there. -/
def Pc.sleepsOn (q : BoundedQueue α) : Pc α → Option (Nat × Nat)
  | .wait j i (.asleep word) => some (j.slot q + i, word)
  | _ => none

namespace State

variable {s s' : State Tid α} {u t : Tid} {slot word : Nat}

/-- Thread `t` sleeps on a slot, since the slot had this word. -/
def Asleep (s : State Tid α) (t : Tid) (slot word : Nat) : Prop :=
  ∃ j i, s.pc t = .wait j i (.asleep word) ∧ j.slot s.q + i = slot

omit [DecidableEq Tid] in
theorem asleep_iff : s.Asleep t slot word ↔ (s.pc t).sleepsOn s.q = some (slot, word) := by
  unfold Asleep Pc.sleepsOn
  constructor
  · rintro ⟨j, i, hp, rfl⟩
    rw [hp]
  · intro sleeps
    split at sleeps
    · rename_i j i word' hp
      simp only [Option.some.injEq, Prod.mk.injEq] at sleeps
      exact ⟨j, i, sleeps.2 ▸ hp, sleeps.1⟩
    · cases sleeps

/-- Some thread will wake all who sleep on the slot. -/
def Covered (s : State Tid α) (slot : Nat) : Prop := ∃ u, (s.pc u).Covers s.q slot

/-- What every step keeps: the words that the threads have seen, and that a sleeper whose
word has changed will be woken. -/
structure Watched (s : State Tid α) : Prop where
  ok : ∀ t, (s.pc t).Ok s.q
  woken : ∀ t slot word, s.Asleep t slot word → s.q.futex slot = word ∨ s.Covered slot

/-- A thread goes on covering the slots whose words stay. -/
theorem covers_others (same : Same s.q s'.q) (effect : Effect s s' u) {v : Tid} (hv : v ≠ u)
    (kept : s'.q.futex slot = s.q.futex slot) (covers : (s.pc v).Covers s.q slot) :
    s'.Covered slot := by
  refine ⟨v, (same.covers kept).mpr ?_⟩
  obtain eq | ⟨j, i, -, eq⟩ := effect.others hv
  · rwa [eq]
  · rwa [eq, awaken_covers]

/-- A thread that is about to wake the sleepers of a slot does so whatever others store. -/
theorem wakes_others (same : Same s.q s'.q) (effect : Effect s s' u) {v : Tid} (hv : v ≠ u)
    (wakes : (s.pc v).Wakes s.q slot) : (s'.pc v).Wakes s'.q slot := by
  refine same.wakes ?_
  obtain ⟨j, i, hp, here⟩ := wakes
  obtain eq | ⟨k, l, -, eq⟩ := effect.others hv
  · exact ⟨j, i, eq.trans hp, here⟩
  · exact ⟨j, i, by rw [eq, hp]; rfl, here⟩

/-- A sleeper of a slot without a mark. -/
theorem covered_unmarked (woken : s.q.futex slot = word ∨ s.Covered slot) (marked : 65535 < word)
    (same : Same s.q s'.q) (effect : Effect s s' u) (low : s.q.futex slot ≤ 65535)
    (mine : ¬(s.pc u).Wakes s.q slot) : s'.Covered slot := by
  obtain eq | ⟨v, covers⟩ := woken
  · omega
  · have wakes := covers.wakes low
    have hv : v ≠ u := by rintro rfl; exact mine wakes
    exact ⟨v, (wakes_others same effect hv wakes).covers⟩

/-- The sleepers after a step: a new one has just compared the word. -/
theorem asleep_before (effect : Effect s s' u) {j : Job α} {i : Nat}
    (hp : s'.pc t = .wait j i (.asleep word)) :
    t ≠ u ∧ s.pc t = .wait j i (.asleep word) ∨
      t = u ∧ s'.q.futex (j.slot s.q + i) = word := by
  by_cases ht : t = u
  · refine Or.inr ⟨ht, ?_⟩
    subst ht
    have asleep := congrArg Pc.awake hp
    cases effect with
    | quiet p futex pc passes =>
      rw [pc, Function.update_self] at hp
      rw [futex]
      exact passes.sleeps j i word hp
    | mark k l _ _ pc | clear k l _ _ pc =>
      rw [pc, Function.update_self] at asleep
      cases asleep
    | exchange k l _ _ _ pc =>
      rw [pc, Function.update_self] at asleep
      split_ifs at asleep
      · rw [awake_finish] at asleep; cases asleep
      · cases asleep
    | store k l _ _ _ pc =>
      rw [pc, Function.update_self] at asleep
      split_ifs at asleep
      · cases asleep
      · cases asleep
      · rw [awake_finish] at asleep; cases asleep
    | wakeAll k l _ _ pc =>
      rw [pc, Function.update_self, awake_nextWake] at asleep
      cases asleep
  · refine Or.inl ⟨ht, ?_⟩
    obtain eq | ⟨k, l, -, eq⟩ := effect.others ht
    · exact eq ▸ hp
    · exact (asleep_of_awaken (eq ▸ hp)).1

/-- A thread that will wake the sleepers of a slot still will after its own step, unless the
step is the one that wakes them. -/
theorem covers_own (same : Same s.q s'.q) (effect : Effect s s' u)
    (wake : ∀ c, (s.pc u).call? = some c → c.wake = true) (covers : (s.pc u).Covers s.q slot) :
    (s'.pc u).Covers s'.q slot ∨
      (s.pc u).Wakes s.q slot ∧ ∀ t word, t ≠ u → ¬s'.Asleep t slot word := by
  cases effect with
  | quiet p futex pc passes =>
    left
    rw [pc, Function.update_self]
    exact (same.covers (by rw [futex])).mpr (passes.covers slot covers)
  | mark j i here futex pc =>
    rw [here] at covers
    exact covers.elim
  | exchange j i here wakes futex pc =>
    rw [here] at covers
    exact absurd wakes.1 covers.1
  | store j i here late futex pc =>
    left
    rw [here] at covers
    obtain ⟨several, marked, k, hk, lt, stored⟩ := covers
    have kept : s'.q.futex slot = s.q.futex slot := by
      rw [futex, Function.update_of_ne]
      rw [← stored.1]
      omega
    refine (same.covers kept).mpr ?_
    rw [pc, Function.update_self]
    split_ifs with more wakes
    · exact ⟨several, marked, k, Nat.lt_succ_of_lt hk, lt, stored⟩
    · exact ⟨marked, k, lt, Nat.zero_le k, stored⟩
    · exact absurd (wake j.call (by rw [here]; rfl)) wakes
  | clear j i here futex pc =>
    left
    rw [here] at covers
    rw [pc, Function.update_self]
    by_cases at_ : j.slot s.q + i = slot
    · exact Or.inl (by rw [same.slot_eq, at_])
    · refine (same.covers (by rw [futex, Function.update_of_ne (Ne.symm at_)])).mpr (Or.inr ?_)
      exact ⟨covers.1, covers.2.resolve_left fun left => at_ left.1⟩
  | wakeAll j i here futex pc =>
    rw [here] at covers
    obtain rfl | ⟨marked, k, hk, lt, stored⟩ := covers
    · right
      refine ⟨⟨j, i, here, rfl⟩, ?_⟩
      rintro t word ht ⟨l, m, hp, at_⟩
      rw [pc, Function.update_of_ne ht] at hp
      refine (asleep_of_awaken hp).2 ?_
      rwa [same.slot_eq] at at_
    · left
      refine (same.covers (by rw [futex])).mpr ?_
      rw [pc, Function.update_self, Job.nextWake, if_pos (by omega)]
      exact ⟨marked, k, hk, lt, stored⟩

/-- What a thread knows about words stays true. -/
theorem ok_step (h : ∀ t, (s.pc t).Ok s.q) (same : Same s.q s'.q) (effect : Effect s s' u)
    (t : Tid) : (s'.pc t).Ok s'.q := by
  refine same.ok ?_
  by_cases ht : t = u
  · subst ht
    have ok := h t
    cases effect with
    | quiet p futex pc passes => rw [pc, Function.update_self]; exact passes.ok ok
    | mark j i here futex pc =>
      rw [here] at ok
      rw [pc, Function.update_self]
      obtain ⟨low, differs⟩ := ok
      refine ⟨by omega, ?_⟩
      rwa [u16, Nat.add_mod_right]
    | exchange j i here wakes futex pc =>
      rw [pc, Function.update_self]
      split_ifs
      · exact ok_finish
      · trivial
    | store j i here late futex pc =>
      rw [pc, Function.update_self]
      split_ifs with more
      · exact more
      · trivial
      · exact ok_finish
    | clear j i here futex pc => rw [pc, Function.update_self]; trivial
    | wakeAll j i here futex pc => rw [pc, Function.update_self]; exact ok_nextWake i
  · obtain eq | ⟨k, l, -, eq⟩ := effect.others ht
    · rw [eq]; exact h t
    · rw [eq]; exact ok_awaken (h t)

/-- A step that stores the word of a slot leaves nobody asleep there without a thread that
will wake him. -/
theorem covered_changed (ok : (s.pc u).Ok s.q) (same : Same s.q s'.q) (effect : Effect s s' u)
    (wake : ∀ c, (s.pc u).call? = some c → c.wake = true)
    (woken : s.q.futex slot = word ∨ s.Covered slot) (marked : 65535 < word)
    (changed : s'.q.futex slot ≠ s.q.futex slot) : s'.Covered slot := by
  have here : ∀ {k : Nat} {v : Nat}, s'.q.futex = Function.update s.q.futex k v → slot = k := by
    intro k v futex
    by_contra ne
    exact changed (by rw [futex, Function.update_of_ne ne])
  cases effect with
  | quiet p futex pc passes => exact absurd (by rw [futex]) changed
  | wakeAll j i at_ futex pc => exact absurd (by rw [futex]) changed
  | mark j i at_ futex pc =>
    rw [at_] at ok
    refine covered_unmarked woken marked same (.mark j i at_ futex pc) (here futex ▸ ok.1) ?_
    rw [at_]
    rintro ⟨k, l, e, -⟩
    cases e
  | clear j i at_ futex pc =>
    refine ⟨u, ?_⟩
    rw [pc, Function.update_self]
    exact Or.inl (by rw [same.slot_eq, here futex])
  | exchange j i at_ wakes futex pc =>
    by_cases low : s.q.futex slot ≤ 65535
    · refine covered_unmarked woken marked same (.exchange j i at_ wakes futex pc) low ?_
      rw [at_]
      rintro ⟨k, l, e, -⟩
      cases e
    · refine ⟨u, ?_⟩
      rw [pc, Function.update_self, if_neg (here futex ▸ low)]
      exact Or.inl (by rw [same.slot_eq, here futex])
  | store j i at_ late futex pc =>
    by_cases low : s.q.futex slot ≤ 65535
    · refine covered_unmarked woken marked same (.store j i at_ late futex pc) low ?_
      rw [at_]
      rintro ⟨k, l, e, -⟩
      cases e
    · have bound : i < j.num := by rwa [at_] at ok
      have wakes : j.call.wake = true := wake j.call (by rw [at_]; rfl)
      have new : s'.q.futex slot =
          s.q.futex slot / 65536 * 65536 + u16 (j.expected s.q + 1) := by
        rw [futex, here futex, Function.update_self]
      have stored : j.Stored s'.q slot i := by
        refine ⟨by rw [same.slot_eq, here futex], ?_⟩
        rw [new, same.expected_eq]
        unfold u16
        omega
      refine ⟨u, ?_⟩
      rw [pc, Function.update_self]
      split_ifs
      · exact ⟨fun single => late ⟨single, wakes⟩, by omega, i, Nat.lt_succ_self i, bound, stored⟩
      · exact ⟨by omega, i, bound, Nat.zero_le i, stored⟩

/-- One step does not strand a sleeper, if the calls of the other threads wake. -/
theorem woken_step (ok : ∀ t, (s.pc t).Ok s.q) (same : Same s.q s'.q) (effect : Effect s s' u)
    (wake : t ≠ u → ∀ c, (s.pc u).call? = some c → c.wake = true)
    (woken : s.Asleep t slot word → s.q.futex slot = word ∨ s.Covered slot)
    (asleep : s'.Asleep t slot word) : s'.q.futex slot = word ∨ s'.Covered slot := by
  obtain ⟨j, i, hp, here⟩ := id asleep
  rw [same.slot_eq] at here
  obtain ⟨ht, old⟩ | ⟨-, eq⟩ := asleep_before effect hp
  swap
  · exact Or.inl (here ▸ eq)
  have marked : 65535 < word := by
    have ok := ok t
    rw [old] at ok
    exact ok.1
  replace woken := woken ⟨j, i, old, here⟩
  by_cases kept : s'.q.futex slot = s.q.futex slot
  swap
  · exact Or.inr (covered_changed (ok u) same effect (wake ht) woken marked kept)
  obtain eq | ⟨v, covers⟩ := woken
  · exact Or.inl (kept.trans eq)
  right
  by_cases hv : v = u
  swap
  · exact covers_others same effect hv kept covers
  subst hv
  exact ⟨v, (covers_own same effect (wake ht) covers).resolve_right
    fun none => none.2 t word ht asleep⟩

/-- One step. -/
theorem Watched.step (h : Watched s) (same : Same s.q s'.q) (effect : Effect s s' u)
    (wake : ∀ c, (s.pc u).call? = some c → c.wake = true) : Watched s' :=
  ⟨ok_step h.ok same effect, fun t slot word asleep =>
    woken_step h.ok same effect (fun _ => wake) (h.woken t slot word) asleep⟩

/-! ## A wake-up that is owed is performed -/

/-- A bound on the steps that a thread still makes until it has passed its wake-ups. -/
def ahead : Pc α → Nat
  | .publish j i => 3 * j.num + 3 + (j.num - i)
  | .wakeLoad j i => 3 * (j.num - i) + 2
  | .wakeClear j i _ => 3 * (j.num - i) + 1
  | .wakeAll j i => 3 * (j.num - i)
  | _ => 0

theorem ahead_nextWake {j : Job α} {i : Nat} (more : i + 1 < j.num) :
    ahead (j.nextWake i) + 1 = 3 * (j.num - i) := by
  rw [Job.nextWake, if_pos more]
  simp only [ahead]
  omega

/-- A thread that owes a wake-up is not blocked, and each of its steps brings it closer. -/
theorem advance_ahead (wake : ∀ c, (s.pc u).call? = some c → c.wake = true)
    (covers : (s.pc u).Covers s.q slot) (later : ¬(s.pc u).Wakes s.q slot) :
    ∃ s', s.advance u = some s' ∧ ahead (s'.pc u) < ahead (s.pc u) := by
  unfold State.advance
  cases hp : s.pc u with
  | publish j i =>
    rw [hp] at covers wake
    obtain ⟨several, -⟩ := covers
    refine ⟨_, if_neg fun single => several single.1, ?_⟩
    simp only [Function.update_self]
    split_ifs with more wakes
    · simp only [ahead]; omega
    · simp only [ahead]; omega
    · exact absurd (wake j.call rfl) wakes
  | wakeLoad j i =>
    rw [hp] at covers
    obtain ⟨marked, k, hk, le, here, version⟩ := covers
    have skip : i ≠ k → ahead (j.nextWake i) < ahead (.wakeLoad j i) := fun ne => by
      have next := ahead_nextWake (i := i) (show i + 1 < j.num by omega)
      change ahead (j.nextWake i) < 3 * (j.num - i) + 2
      omega
    simp only
    split_ifs with low passed
    · refine ⟨_, rfl, ?_⟩
      simp only [goto, Function.update_self]
      refine skip ?_
      rintro rfl
      rw [here] at low
      omega
    · refine ⟨_, rfl, ?_⟩
      simp only [goto, Function.update_self]
      refine skip ?_
      rintro rfl
      rw [here] at passed
      exact passed version
    · refine ⟨_, rfl, ?_⟩
      simp only [goto, Function.update_self, ahead]
      omega
  | wakeClear j i word =>
    rw [hp] at covers
    simp only
    split_ifs with same
    · refine ⟨_, rfl, ?_⟩
      simp only [goto, Function.update_self, ahead]
      omega
    · refine ⟨_, rfl, ?_⟩
      obtain ⟨-, ⟨here, eq⟩ | ⟨k, hk, lt, -⟩⟩ := covers
      · exact absurd (here ▸ eq) same
      · have next := ahead_nextWake (i := i) (show i + 1 < j.num by omega)
        simp only [goto, Function.update_self]
        change ahead (j.nextWake i) < 3 * (j.num - i) + 1
        omega
  | wakeAll j i =>
    rw [hp] at covers later
    obtain here | ⟨-, k, hk, lt, -⟩ := covers
    · exact absurd ⟨j, i, rfl, here⟩ later
    · refine ⟨_, rfl, ?_⟩
      have next := ahead_nextWake (i := i) (show i + 1 < j.num by omega)
      simp only [Function.update_self]
      change ahead (j.nextWake i) < 3 * (j.num - i)
      omega
  | _ =>
    rw [hp] at covers
    exact covers.elim

/-- Thread `u` makes `n` steps while all others rest. -/
def alone (s : State Tid α) (u : Tid) : Nat → Option (State Tid α)
  | 0 => some s
  | n + 1 => (s.advance u).bind fun s' => s'.alone u n

/-- Thread `u` has a `wake_all` on the slot ahead of it, to which it gets by its own steps. -/
def GoesToWake (s : State Tid α) (u : Tid) (slot : Nat) : Prop :=
  ∃ n s', s.alone u n = some s' ∧ (s'.pc u).Wakes s'.q slot

/-- Who will wake the sleepers of a slot is not blocked before he does it. -/
theorem goesToWake_of_covers {n : Nat} (bound : ahead (s.pc u) ≤ n)
    (wake : ∀ c, (s.pc u).call? = some c → c.wake = true) (covers : (s.pc u).Covers s.q slot) :
    s.GoesToWake u slot := by
  induction n generalizing s with
  | zero =>
    by_contra never
    obtain ⟨s', -, lt⟩ := advance_ahead wake covers fun wakes => never ⟨0, s, rfl, wakes⟩
    omega
  | succ n ih =>
    by_cases wakes : (s.pc u).Wakes s.q slot
    · exact ⟨0, s, rfl, wakes⟩
    obtain ⟨s', hs, lt⟩ := advance_ahead wake covers wakes
    obtain ⟨same, effect⟩ := advance_effect hs
    have still : (s'.pc u).Covers s'.q slot :=
      (covers_own same effect wake covers).resolve_right fun done => wakes done.1
    obtain ⟨k, r, run, reached⟩ :=
      ih (by omega) (fun c hc => wake c (advance_call? hs u ▸ hc)) still
    exact ⟨k + 1, r, by rw [alone, hs]; exact run, reached⟩

/-- Every call is compiled with `USE_FUTEX_WAKE`. -/
def waking (_ : State Tid α) (m : Tid × Move α) (_ : State Tid α) : Prop :=
  ∀ c, m.2 = .call c → c.wake = true

instance (s s' : State Tid α) (m : Tid × Move α) : Decidable (waking s m s') :=
  decidable_of_iff ((match m.2 with | .call c => c.wake | _ => true) = true) (by
    unfold waking
    cases m.2 <;> simp)

theorem watched_of_reach {zero : α} {minCapacity : Nat}
    (h : (machine Tid zero minCapacity).Reach waking s) : s.Watched := by
  refine h.inv_reach ?_ ?_
  · rintro s rfl
    exact ⟨fun _ => trivial, fun t slot word ⟨j, i, hp, _⟩ => by cases hp⟩
  · rintro s ⟨u, m⟩ s' reach watched hs side
    obtain ⟨same, effect⟩ := step_effect hs
    refine watched.step same effect fun c hc => ?_
    exact obeys_of_reach (P := fun c => c.wake = true) (fun _ _ _ _ made => made _ rfl) reach u c hc

/-- When every call wakes, a thread that sleeps on a slot sees the word that it has seen
before, or some thread has a `wake_all` on the slot ahead of it. -/
theorem woken_of_reach {zero : α} {minCapacity : Nat}
    (h : (machine Tid zero minCapacity).Reach waking s) {t : Tid} {slot word : Nat}
    (asleep : s.Asleep t slot word) :
    s.q.futex slot = word ∨ ∃ u, (s.pc u).Covers s.q slot ∧ s.GoesToWake u slot := by
  refine ((watched_of_reach h).woken t slot word asleep).imp_right ?_
  rintro ⟨u, covers⟩
  refine ⟨u, covers, goesToWake_of_covers le_rfl (fun c hc => ?_) covers⟩
  exact obeys_of_reach (P := fun c => c.wake = true) (fun _ _ _ _ made => made _ rfl) h u c hc

end State

/-- A `pop` sleeps on the only slot, and a `push_n` stores the version that it waits for,
below the mark. -/
def storeBelowMark : List (Nat × Move Nat) :=
  (1, .call ⟨.cons, none, false, true, true, fun _ => 0⟩) :: List.replicate 4 (1, .step) ++
    (0, .call ⟨.prod, some 1, false, true, true, fun _ => 7⟩) :: List.replicate 4 (0, .step)

theorem woken_of_reach_storeBelowMark :
    ∃ s, (machine Nat 0 1).run (fresh Nat 0 1) storeBelowMark = some s ∧
      s.q.futex 0 = 65537 ∧ ∃ u, (s.pc u).Covers s.q 0 ∧ s.GoesToWake u 0 := by
  have along : (machine Nat 0 1).Along State.waking (fresh Nat 0 1) storeBelowMark := by
    decide +kernel
  have seen : ((machine Nat 0 1).run (fresh Nat 0 1) storeBelowMark).map (fun s =>
      (s.q.futex 0, (s.pc 1).sleepsOn s.q)) = some (65537, some (0, 65536)) := by decide +kernel
  obtain ⟨s, run, reach, seen⟩ := Machine.Reach.of_along_seen (.start rfl) along seen
  simp only [Prod.mk.injEq] at seen
  obtain ⟨stored, sleeps⟩ := seen
  have asleep : s.Asleep 1 0 65536 := State.asleep_iff.mpr sleeps
  refine ⟨s, run, stored, (State.woken_of_reach reach asleep).resolve_left fun eq => ?_⟩
  omega

end Fuxi.Base.BoundedQueue
