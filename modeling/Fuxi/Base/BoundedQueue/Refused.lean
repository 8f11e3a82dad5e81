import Fuxi.Base.BoundedQueue.ExactlyOnce
import Fuxi.Base.BoundedQueue.Wakeup

/-!
# A refused call had no choice

A single `try_push` or `try_pop` looks at the slot of a ticket and then asks whether this is still
the next ticket of its side. If it returns false, then at the moment of the look the operation of
the other side that the slot waits for had not completed.
-/

namespace Fuxi.Base.BoundedQueue

open Lib

variable {α Tid : Type*}

/-- Nobody has claimed the ticket, or its holder has not completed the operation. -/
def Incomplete (s : State Tid α) (σ : Side) (k : Nat) : Prop :=
  s.q.nextIndex σ ≤ k ∨ ∃ t, (s.pc t).Holds σ k

/-- The next push has no slot, as the pop that frees it has not completed, or the next pop has no
value, as the push that writes it has not completed. -/
def Refuses (s : State Tid α) : Side → Prop
  | .prod =>
    s.q.capacity ≤ s.q.nextIndex .prod ∧
      Incomplete s .cons (s.q.nextIndex .prod - s.q.capacity)
  | .cons => Incomplete s .prod (s.q.nextIndex .cons)

/-- A single non-blocking call that will not return false, or that will look at a slot again. -/
def Pc.Unrefused (next : Side → Nat) : Pc α → Prop
  | .loadIndex _ | .tryCheck _ _ | .tryClaim _ | .callback _ | .publish _ _ | .wakeLoad _ _
  | .wakeClear _ _ _ | .wakeAll _ _ => True
  | .tryReload j => j.index < next j.call.side
  | .returned _ moved => moved ≠ 0
  | .idle | .fetchAdd _ | .wait _ _ _ => False

namespace Inv

variable {s : State Tid α}

theorem incomplete (h : Inv s) {σ : Side} {k : Nat}
    (low : s.hist.ver (k % s.q.capacity) ≤ phase s.q.capacity σ k) : Incomplete s σ k := by
  by_cases claimed : k < s.q.nextIndex σ
  · exact Or.inr (h.cover σ k claimed low)
  · exact Or.inl (not_lt.mp claimed)

/-- A slot that does not wait for the next ticket of a side waits for the other side. -/
theorem refuses (h : Inv s) {σ : Side}
    (unready : ¬Ready s.q.capacity s.hist σ (s.q.nextIndex σ)) : Refuses s σ := by
  have behind : s.hist.ver (s.q.nextIndex σ % s.q.capacity) <
      phase s.q.capacity σ (s.q.nextIndex σ) := lt_of_le_of_ne (h.fresh σ _ le_rfl) unready
  cases σ with
  | prod =>
    simp only [Refuses]
    generalize s.q.nextIndex .prod = k at behind
    simp only [phase] at behind
    have later : s.q.capacity ≤ k := by
      by_contra first
      rw [Nat.div_eq_of_lt (not_le.mp first)] at behind
      omega
    refine ⟨later, h.incomplete ?_⟩
    have slot : (k - s.q.capacity) % s.q.capacity = k % s.q.capacity := by
      rw [← Nat.add_mod_right (k - s.q.capacity), Nat.sub_add_cancel later]
    have epoch : (k - s.q.capacity) / s.q.capacity = k / s.q.capacity - 1 := by
      have := Nat.sub_mul_div k s.q.capacity 1
      rwa [Nat.mul_one] at this
    rw [slot, phase, epoch]
    omega
  | cons =>
    refine h.incomplete ?_
    simp only [phase] at behind ⊢
    omega

/-- A call that finds another version than it expects is refused, if its ticket is the next one. -/
theorem refuses_of_version (h : Inv s) {j : Job α} (ok : JobOk s.q.capacity j) (pos : 0 < j.num)
    (next : s.q.nextIndex j.call.side = j.index)
    (differs : j.expected s.q ≠ s.q.version (j.slot s.q)) : Refuses s j.call.side := by
  refine h.refuses fun ready => differs ?_
  have slot := h.slot_add ok pos
  rw [Nat.add_zero, Nat.add_zero] at slot
  rw [next] at ready
  rw [h.expected_eq ok pos, slot, h.word _ (Nat.mod_lt _ h.sized.capacity_pos), ready]
  rfl

end Inv

/-- A single call is done with its only ticket. -/
theorem JobOk.finish_unrefused {c : Nat} {j : Job α} {next : Side → Nat} (ok : JobOk c j)
    (single : j.call.batch = none) : j.finish.Unrefused next := by
  obtain ⟨one, last⟩ := ok.single single
  simp [Job.finish, last, one, Pc.Unrefused]

theorem JobOk.nextWake_unrefused {c : Nat} {j : Job α} {next : Side → Nat} (ok : JobOk c j)
    (single : j.call.batch = none) (i : Nat) : (j.nextWake i).Unrefused next := by
  unfold Job.nextWake
  split_ifs
  · trivial
  · exact ok.finish_unrefused single

theorem Pc.Unrefused.mono {p : Pc α} {next next' : Side → Nat} (h : p.Unrefused next)
    (grow : ∀ σ, next σ ≤ next' σ) : p.Unrefused next' := by
  cases p with
  | tryReload j => exact lt_of_lt_of_le h (grow _)
  | _ => exact h

variable [DecidableEq Tid] {s s' : State Tid α} {t : Tid}

/-- The next indices only grow. -/
theorem State.nextIndex_le {i : Tid × Move α} (hs : s.step i = some s') (σ : Side) :
    s.q.nextIndex σ ≤ s'.q.nextIndex σ := by
  have same : ∀ {q : BoundedQueue α}, q.nextPushIndex = s.q.nextPushIndex →
      q.nextPopIndex = s.q.nextPopIndex → s.q.nextIndex σ ≤ q.nextIndex σ := by
    intro q push pop
    cases σ
    · exact push.ge
    · exact pop.ge
  have claims : ∀ τ n, s.q.nextIndex σ ≤
      (s.q.setNextIndex τ (s.q.nextIndex τ + n)).nextIndex σ := by
    intro τ n
    rw [nextIndex_advance]
    exact Nat.le_add_right ..
  obtain ⟨u, m⟩ := i
  cases m with
  | call c =>
    simp only [step, enter] at hs
    split at hs <;> cases hs <;> exact le_rfl
  | weakFail =>
    simp only [step] at hs
    split at hs
    · split_ifs at hs
      cases hs
      exact le_rfl
    · cases hs
  | spurious =>
    simp only [step] at hs
    split at hs <;> cases hs
    exact le_rfl
  | step =>
    simp only [step, advance] at hs
    cases hp : s.pc u with
    | idle | returned => simp [hp] at hs
    | fetchAdd c =>
      simp only [hp, Option.some.injEq] at hs
      subst hs
      exact claims c.side c.num
    | tryClaim j =>
      simp only [hp] at hs
      split_ifs at hs with next <;> cases hs
      · rw [← next]
        exact claims j.call.side j.num
      · exact le_rfl
      · exact le_rfl
    | wait j i w =>
      simp only [hp] at hs
      unfold advanceWait at hs
      cases w <;> simp only at hs <;> (try split_ifs at hs) <;> cases hs <;>
        exact le_rfl
    | callback j | wakeAll j i | loadIndex c =>
      simp only [hp, Option.some.injEq] at hs
      subst hs
      exact same rfl rfl
    | tryCheck j i | tryReload j | publish j i | wakeLoad j i | wakeClear j i word =>
      simp only [hp] at hs
      split_ifs at hs <;> cases hs <;> exact same rfl rfl

/-- A step of the call itself. -/
theorem Inv.unrefused_advance (h : Inv s) {c : Call α} (call : (s.pc t).call? = some c)
    (single : c.batch = none) (unrefused : (s.pc t).Unrefused s.q.nextIndex)
    (hs : s.advance t = some s') : Refuses s c.side ∨ (s'.pc t).Unrefused s'.q.nextIndex := by
  have loc := h.locals t
  unfold State.advance at hs
  cases hp : s.pc t with
  | idle | fetchAdd | wait => simp only [hp, Pc.Unrefused] at unrefused
  | returned => simp [hp] at hs
  | loadIndex c' =>
    obtain rfl : c' = c := by simpa [hp, Pc.call?] using call
    simp only [hp, Option.some.injEq] at hs
    subst hs
    rw [hp] at loc
    obtain ⟨ok, same, -⟩ := c'.job_ok h.sized loc.1 (s.q.nextIndex c'.side)
    have one := (ok.single (by rw [same]; exact single)).1
    right
    simp [State.goto, Job.startTry, one, Pc.Unrefused]
  | tryCheck j i =>
    obtain rfl : j.call = c := by simpa [hp, Pc.call?] using call
    rw [hp] at loc
    obtain ⟨ok, -, lt, le, -⟩ := loc
    have one := (ok.single single).1
    obtain rfl : i = 0 := by omega
    simp only [hp] at hs
    split_ifs at hs with differs <;> cases hs
    · -- the call is refused unless somebody has claimed the ticket
      obtain next | lt := le.eq_or_lt
      · exact Or.inl (h.refuses_of_version ok lt next.symm differs)
      · right
        simpa [State.goto, Pc.Unrefused] using lt
    · right
      simp [State.goto, Pc.Unrefused]
    · right
      simp [State.goto, Pc.Unrefused]
  | tryReload j =>
    simp only [hp, Pc.Unrefused] at unrefused
    simp only [hp] at hs
    split_ifs at hs with next <;> cases hs
    · omega
    · right
      simp [State.goto, Pc.Unrefused]
  | tryClaim j =>
    obtain rfl : j.call = c := by simpa [hp, Pc.call?] using call
    right
    simp only [hp] at hs
    split_ifs at hs <;> cases hs
    · simp [Pc.Unrefused]
    · simp [State.goto, Pc.Unrefused]
  | callback j =>
    obtain rfl : j.call = c := by simpa [hp, Pc.call?] using call
    rw [hp] at loc
    have one := (loc.1.single single).1
    simp only [hp, Option.some.injEq] at hs
    subst hs
    right
    simp [one, Pc.Unrefused]
  | publish j i =>
    obtain rfl : j.call = c := by simpa [hp, Pc.call?] using call
    rw [hp] at loc
    right
    simp only [hp] at hs
    split_ifs at hs <;> cases hs <;> simp only [Function.update_self] <;>
      first | trivial | exact loc.1.finish_unrefused single
  | wakeLoad j i =>
    obtain rfl : j.call = c := by simpa [hp, Pc.call?] using call
    rw [hp] at loc
    right
    simp only [hp] at hs
    split_ifs at hs <;> cases hs <;> simp only [State.goto, Function.update_self] <;>
      first | trivial | exact loc.1.nextWake_unrefused single i
  | wakeClear j i word =>
    obtain rfl : j.call = c := by simpa [hp, Pc.call?] using call
    rw [hp] at loc
    right
    simp only [hp] at hs
    split_ifs at hs <;> cases hs <;> simp only [State.goto, Function.update_self] <;>
      first | trivial | exact loc.1.nextWake_unrefused single i
  | wakeAll j i =>
    obtain rfl : j.call = c := by simpa [hp, Pc.call?] using call
    rw [hp] at loc
    simp only [hp, Option.some.injEq] at hs
    subst hs
    right
    simp only [Function.update_self]
    exact loc.1.nextWake_unrefused single i

/-- What is known of a call that has not been refused, in a run. -/
structure Tries (c : Call α) (t : Tid) (s : State Tid α) : Prop where
  inv : Inv s
  call : (s.pc t).call? = some c
  unrefused : (s.pc t).Unrefused s.q.nextIndex

/-- The other threads leave the call alone. -/
theorem Tries.others {c : Call α} (h : Tries c t s) {u : Tid} (hu : t ≠ u) {m : Move α}
    (hs : s.step (u, m) = some s') : s'.pc t = s.pc t := by
  obtain same | ⟨j, i, -, awaken⟩ := (State.step_effect hs).2.others hu
  · exact same
  · rw [awaken]
    have awake := h.unrefused
    cases hp : s.pc t <;> rw [hp] at awake <;> first | rfl | exact awake.elim

/-- As long as the thread makes no other call, each step leaves the call unrefused or starts where
the call is refused with cause. -/
theorem Tries.step {c : Call α} (h : Tries c t s) (single : c.batch = none) {i : Tid × Move α}
    (hs : s.step i = some s') (side : disciplined s i s') (own : ∀ c', i ≠ (t, .call c')) :
    Refuses s c.side ∨ Tries c t s' := by
  have inv := h.inv.step side.2 side.1 hs
  obtain ⟨u, m⟩ := i
  by_cases hu : t = u
  · subst hu
    cases m with
    | call c' => exact absurd rfl (own c')
    | step =>
      have call := (State.advance_call? hs t).trans h.call
      exact (h.inv.unrefused_advance h.call single h.unrefused hs).imp_right fun un =>
        ⟨inv, call, un⟩
    | weakFail =>
      simp only [State.step] at hs
      split at hs
      · rename_i j hp
        split_ifs at hs
        cases hs
        refine Or.inr ⟨inv, ?_, ?_⟩
        · have call := h.call
          rw [hp] at call
          simpa [State.goto, Pc.call?] using call
        · simp [State.goto, Pc.Unrefused]
      · cases hs
    | spurious =>
      simp only [State.step] at hs
      split at hs
      · rename_i hp
        have waits := h.unrefused
        rw [hp] at waits
        exact waits.elim
      · cases hs
  · have same := h.others hu hs
    exact Or.inr ⟨inv, same ▸ h.call, same ▸ h.unrefused.mono (State.nextIndex_le hs)⟩

/-- In every interleaving, a single `try_push` that returns false has come through a state in
which the pop that frees the slot of the next push had not completed, and a single `try_pop` has
come through one in which the push of the next value had not completed. -/
theorem refusedWithCause (zero : α) (minCapacity : Nat)
    (h : (machine Tid zero minCapacity).Reach disciplined s) {c : Call α}
    (single : c.batch = none) (entered : s.pc t = .loadIndex c) {is : List (Tid × Move α)}
    (along : (machine Tid zero minCapacity).Along disciplined s is)
    (hr : (machine Tid zero minCapacity).run s is = some s')
    (own : ∀ c', (t, .call c') ∉ is) (refused : s'.pc t = .returned c 0) :
    (machine Tid zero minCapacity).Visits (fun r => Refuses r c.side) s is := by
  have start : Tries c t s :=
    ⟨reach_inv zero minCapacity h, by rw [entered]; rfl, by rw [entered]; trivial⟩
  have others : ∀ i ∈ is, ∀ c', i ≠ (t, .call c') := fun i mem c' eq => own c' (eq ▸ mem)
  have later := along.inv_or_visits hr others start fun r i r' tries hs side own =>
    tries.step single hs side own
  rcases later with visits | tries
  · exact visits
  · have un := tries.unrefused
    rw [refused] at un
    exact absurd rfl un

/-- A `try_pop`. -/
def triedPop : Call Nat := ⟨.cons, none, true, true, true, fun _ => 0⟩

/-- A push claims the first ticket, and a `try_pop` enters. -/
def overlap : List (Nat × Move Nat) :=
  [(0, .call ⟨.prod, none, false, true, true, fun _ => 5⟩), (0, .step), (1, .call triedPop)]

/-- The state after that. -/
def slowPush : State Nat Nat :=
  ((machine Nat 0 2).run (fresh Nat 0 2) overlap).getD (fresh Nat 0 2)

theorem slowPush_reach : (machine Nat 0 2).Reach disciplined slowPush := by
  have along : (machine Nat 0 2).Along short (fresh Nat 0 2) overlap := by decide +kernel
  obtain ⟨s, run, reach⟩ := Machine.Reach.of_along (.start rfl) along
  have same : slowPush = s := by rw [slowPush, run, Option.getD_some]
  exact same ▸ reach_of_short 0 2 reach

/-- The `try_pop` looks at the slot before the push completes, and returns after that. -/
def looksEarly : List (Nat × Move Nat) :=
  [(1, .step), (1, .step), (0, .step), (0, .step), (0, .step), (1, .step)]

theorem refusedWithCause_looksEarly :
    (machine Nat 0 2).Visits (fun r => Refuses r .cons) slowPush looksEarly := by
  have few : (machine Nat 0 2).Along short slowPush looksEarly := by decide +kernel
  have along := along_of_short 0 2 (reach_inv 0 2 slowPush_reach) few
  have refused : ((machine Nat 0 2).run slowPush looksEarly).map (fun s => s.pc 1) =
      some (.returned triedPop 0) := rfl
  obtain ⟨s, run, at_⟩ := Option.map_eq_some_iff.mp refused
  exact refusedWithCause 0 2 slowPush_reach rfl (rfl : slowPush.pc 1 = .loadIndex triedPop) along
    run (by simp [looksEarly]) at_

end Fuxi.Base.BoundedQueue
