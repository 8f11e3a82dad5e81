import Mathlib.Algebra.BigOperators.Group.Finset.Basic
import Mathlib.Algebra.Order.BigOperators.Group.Finset
import Mathlib.Data.Prod.Lex
import Fuxi.Base.BoundedQueue.Stalled
import Fuxi.Base.BoundedQueue.Wakeup
import Fuxi.Lib.Progress

/-!
# Calls on the queue wait for a partner only

Once no new calls are made, every schedule that keeps giving the running calls their turn brings
all of them to their end, up to pops of tickets that no push has claimed and pushes whose slots no
pop has claimed. Each step of a thread lowers one of four numbers and leaves those before it: the
claims that are still to be made, the steps of work that the threads have ahead, the slots whose
word can be marked, and the steps until every waiter sleeps. A waiter that spins rests. A sleeper
whose slot is ready is woken by a thread that still has work ahead.
-/

namespace Fuxi.Base.BoundedQueue

open Lib

variable {α Tid : Type*}

/-- One if the second part of the job is claimed separately. -/
def Job.pending (j : Job α) : ℕ := if j.rest ≠ 0 ∧ j.call.trying = true then 1 else 0

/-- A bound on the work after the first part. -/
def Job.tail (j : Job α) : ℕ := if j.rest = 0 then 0 else 5 * j.rest + 6

namespace Pc

/-- A bound on the claims that the call still makes. -/
def claimsLeft : Pc α → ℕ
  | .idle | .returned _ _ => 0
  | .fetchAdd _ | .loadIndex _ => 2
  | .tryCheck j _ | .tryReload j | .tryClaim j => if j.rest = 0 then 1 else 2
  | .wait j _ _ | .callback j | .publish j _ | .wakeLoad j _ | .wakeClear j _ _
  | .wakeAll j _ => j.pending

/-- A bound on the steps that the call makes before its next claim, not counting those of a
waiter that is not ready. -/
def work (next : Side → ℕ) : Pc α → ℕ
  | .idle | .returned _ _ | .fetchAdd _ => 0
  | .loadIndex c => c.num + 3
  | .tryCheck j i => j.num - i + if j.index = next j.call.side then 2 else j.num + 4
  | .tryReload j | .tryClaim j => if j.index = next j.call.side then 1 else j.num + 3
  | .wait j i _ => (j.num - i) + 4 * j.num + 6 + j.tail
  | .callback j => 4 * j.num + 5 + j.tail
  | .publish j i => (j.num - i) + 3 * j.num + 4 + j.tail
  | .wakeLoad j i => 3 * (j.num - i - 1) + 3 + j.tail
  | .wakeClear j i _ => 3 * (j.num - i - 1) + 2 + j.tail
  | .wakeAll j i => 3 * (j.num - i - 1) + 1 + j.tail

end Pc

/-- A bound on the steps until a waiter sleeps, if the word of its slot stays. -/
def Wait.noise (actual : ℕ) : Wait → ℕ
  | .asleep _ | .spin => 0
  | .mark word | .sleep word => if actual = word then 1 else 3
  | .load | .reload => 2

def Pc.noise (q : BoundedQueue α) : Pc α → ℕ
  | .wait j i w => w.noise (q.futex (j.slot q + i))
  | _ => 0

/-- The number of slots whose word is not marked. -/
def unmarked (q : BoundedQueue α) : ℕ :=
  ∑ slot ∈ Finset.range q.capacity, if q.futex slot ≤ 65535 then 1 else 0

section Parts

variable (j : Job α) (next : Side → ℕ) (q : BoundedQueue α)

theorem claimsLeft_finish : j.finish.claimsLeft ≤ j.pending := by
  unfold Job.finish
  split_ifs with none trying
  · exact Nat.zero_le _
  · have some : j.second.num ≠ 0 := none
    rw [Job.startTry, if_neg some, Job.pending, if_pos ⟨none, trying⟩]
    exact le_rfl
  · have some : j.second.num ≠ 0 := none
    rw [Job.startWait, if_neg some]
    simp [Pc.claimsLeft, Job.pending, Job.second]

theorem work_tryCheck_le (i : ℕ) : (Pc.tryCheck j i).work next ≤ (j.num - i) + j.num + 4 := by
  simp only [Pc.work]
  split_ifs <;> omega

theorem work_finish : j.finish.work next ≤ j.tail := by
  unfold Job.finish
  split_ifs with none trying
  · exact Nat.zero_le _
  · have some : j.second.num ≠ 0 := none
    rw [Job.startTry, if_neg some, Job.tail, if_neg none]
    have le := work_tryCheck_le j.second next 0
    have num : j.second.num = j.rest := rfl
    omega
  · have some : j.second.num ≠ 0 := none
    rw [Job.startWait, if_neg some, Job.tail, if_neg none]
    simp only [Pc.work, Job.second, Job.tail, if_true]
    omega

theorem claimsLeft_nextWake (i : ℕ) : (j.nextWake i).claimsLeft ≤ j.pending := by
  unfold Job.nextWake
  split_ifs
  · exact le_rfl
  · exact claimsLeft_finish j

theorem work_nextWake (i : ℕ) : (j.nextWake i).work next < 3 * (j.num - i - 1) + 1 + j.tail := by
  unfold Job.nextWake
  split_ifs
  · simp only [Pc.work]; omega
  · have := work_finish j next; omega

theorem claimsLeft_ready (i : ℕ) : (j.ready i).claimsLeft = j.pending := by
  unfold Job.ready
  split_ifs <;> rfl

theorem work_ready (i : ℕ) (w : Wait) :
    (j.ready i).work next < (Pc.wait j i w).work next := by
  unfold Job.ready
  split_ifs <;> simp only [Pc.work] <;> omega

theorem claimsLeft_startTry : j.startTry.claimsLeft ≤ 2 := by
  unfold Job.startTry
  split_ifs
  · exact Nat.zero_le _
  · simp only [Pc.claimsLeft]; split_ifs <;> omega

theorem pending_le : j.pending ≤ 1 := by
  unfold Job.pending
  split_ifs <;> omega

theorem claimsLeft_startWait : j.startWait.claimsLeft ≤ 1 := by
  unfold Job.startWait
  split_ifs <;> exact pending_le j

theorem claimsLeft_awaken (slot : ℕ) (p : Pc α) :
    (p.awaken q slot).claimsLeft = p.claimsLeft := by
  unfold Pc.awaken
  split
  · split_ifs <;> rfl
  · rfl

theorem work_awaken (slot : ℕ) (p : Pc α) : (p.awaken q slot).work next = p.work next := by
  unfold Pc.awaken
  split
  · split_ifs <;> rfl
  · rfl

end Parts

/-! ## One step -/

/-- A number for each thread does not grow. -/
def Keep (f g : Tid → ℕ) : Prop := ∀ u, g u ≤ f u

/-- A number for each thread does not grow, and that of one thread shrinks. -/
def Down (f g : Tid → ℕ) (t : Tid) : Prop := g t < f t ∧ ∀ u, u ≠ t → g u ≤ f u

theorem Keep.sum {f g : Tid → ℕ} (h : Keep f g) (S : Finset Tid) : ∑ u ∈ S, g u ≤ ∑ u ∈ S, f u :=
  Finset.sum_le_sum fun u _ => h u

theorem Down.sum {f g : Tid → ℕ} {t : Tid} (h : Down f g t) {S : Finset Tid} (mem : t ∈ S) :
    ∑ u ∈ S, g u < ∑ u ∈ S, f u := by
  refine Finset.sum_lt_sum (fun u _ => ?_) ⟨t, mem, h.1⟩
  by_cases hu : u = t
  · subst hu; exact h.1.le
  · exact h.2 u hu

/-- What a step of a thread lowers. -/
inductive Nearer (s s' : State Tid α) (t : Tid) : Prop
  | claims (claims : Down (fun u => (s.pc u).claimsLeft) (fun u => (s'.pc u).claimsLeft) t)
  | works (claims : Keep (fun u => (s.pc u).claimsLeft) (fun u => (s'.pc u).claimsLeft))
      (work : Down (fun u => (s.pc u).work s.q.nextIndex)
        (fun u => (s'.pc u).work s'.q.nextIndex) t)
  | marks (claims : Keep (fun u => (s.pc u).claimsLeft) (fun u => (s'.pc u).claimsLeft))
      (work : Keep (fun u => (s.pc u).work s.q.nextIndex) (fun u => (s'.pc u).work s'.q.nextIndex))
      (marks : unmarked s'.q < unmarked s.q)
  | settles (claims : Keep (fun u => (s.pc u).claimsLeft) (fun u => (s'.pc u).claimsLeft))
      (work : Keep (fun u => (s.pc u).work s.q.nextIndex) (fun u => (s'.pc u).work s'.q.nextIndex))
      (marks : unmarked s'.q ≤ unmarked s.q)
      (noise : Down (fun u => (s.pc u).noise s.q) (fun u => (s'.pc u).noise s'.q) t)

/-- The four numbers of a state, for the calls of some threads. -/
def remaining (S : Finset Tid) (s : State Tid α) : ℕ ×ₗ ℕ ×ₗ ℕ ×ₗ ℕ :=
  toLex (∑ u ∈ S, (s.pc u).claimsLeft, toLex (∑ u ∈ S, (s.pc u).work s.q.nextIndex,
    toLex (unmarked s.q, ∑ u ∈ S, (s.pc u).noise s.q)))

theorem Nearer.lower {s s' : State Tid α} {t : Tid} (h : Nearer s s' t) {S : Finset Tid}
    (mem : t ∈ S) : remaining S s' < remaining S s := by
  cases h with
  | claims claims => exact Prod.Lex.toLex_lt_toLex.mpr (Or.inl (claims.sum mem))
  | works claims work =>
    refine Prod.Lex.toLex_lt_toLex'.mpr ⟨claims.sum S, fun _ => ?_⟩
    exact Prod.Lex.toLex_lt_toLex.mpr (Or.inl (work.sum mem))
  | marks claims work marks =>
    refine Prod.Lex.toLex_lt_toLex'.mpr ⟨claims.sum S, fun _ => ?_⟩
    refine Prod.Lex.toLex_lt_toLex'.mpr ⟨work.sum S, fun _ => ?_⟩
    exact Prod.Lex.toLex_lt_toLex.mpr (Or.inl marks)
  | settles claims work marks noise =>
    refine Prod.Lex.toLex_lt_toLex'.mpr ⟨claims.sum S, fun _ => ?_⟩
    refine Prod.Lex.toLex_lt_toLex'.mpr ⟨work.sum S, fun _ => ?_⟩
    exact Prod.Lex.toLex_lt_toLex'.mpr ⟨marks, fun _ => noise.sum mem⟩

/-- A step that lowers something changes the state. -/
theorem Nearer.ne {s s' : State Tid α} {t : Tid} (h : Nearer s s' t) : s' ≠ s := by
  rintro rfl
  exact lt_irrefl _ (h.lower (Finset.mem_singleton_self t))

section Steps

variable [DecidableEq Tid] {s s' : State Tid α} {t : Tid}

theorem keep_update (f : Pc α → ℕ) {p : Pc α} (le : f p ≤ f (s.pc t)) :
    Keep (fun u => f (s.pc u)) (fun u => f (Function.update s.pc t p u)) := by
  intro u
  by_cases hu : u = t
  · subst hu; simpa using le
  · simp [hu]

theorem down_update (f : Pc α → ℕ) {p : Pc α} (lt : f p < f (s.pc t)) :
    Down (fun u => f (s.pc u)) (fun u => f (Function.update s.pc t p u)) t :=
  ⟨by simpa using lt, fun u hu => by simp [hu]⟩

/-- A thread goes on by a claim. -/
theorem Nearer.of_claims {p : Pc α} (pc : s'.pc = Function.update s.pc t p)
    (lt : p.claimsLeft < (s.pc t).claimsLeft) : Nearer s s' t :=
  .claims (by rw [pc]; exact down_update Pc.claimsLeft lt)

/-- A thread goes on with its work. -/
theorem Nearer.of_work {p : Pc α} (pc : s'.pc = Function.update s.pc t p)
    (next : s'.q.nextIndex = s.q.nextIndex) (le : p.claimsLeft ≤ (s.pc t).claimsLeft)
    (lt : p.work s.q.nextIndex < (s.pc t).work s.q.nextIndex) : Nearer s s' t := by
  refine .works ?_ ?_
  · rw [pc]; exact keep_update Pc.claimsLeft le
  · rw [pc, next]; exact down_update (Pc.work _) lt

/-- A waiter gets closer to its sleep. -/
theorem Nearer.of_noise {j : Job α} {i : ℕ} {w w' : Wait} (hp : s.pc t = .wait j i w)
    (lt : w'.noise (s.q.futex (j.slot s.q + i)) < w.noise (s.q.futex (j.slot s.q + i))) :
    Nearer s (s.goto t (.wait j i w')) t := by
  refine .settles ?_ ?_ le_rfl ?_
  · exact keep_update Pc.claimsLeft (by rw [hp]; exact le_rfl)
  · exact keep_update (Pc.work _) (by rw [hp]; exact le_rfl)
  · exact down_update (Pc.noise s.q) (by rw [hp]; exact lt)

/-- A waiter finds its slot ready. -/
theorem Nearer.of_ready {j : Job α} {i : ℕ} {w : Wait} (hp : s.pc t = .wait j i w) :
    Nearer s (s.goto t (j.ready i)) t :=
  .of_work rfl rfl (by rw [hp, claimsLeft_ready]; exact le_rfl) (by rw [hp]; exact work_ready ..)

/-- A mark takes one of the words that are not marked. -/
theorem unmarked_mark {q : BoundedQueue α} {slot : ℕ} (lt : slot < q.capacity)
    (low : q.futex slot ≤ 65535) :
    unmarked (setFutex q slot (q.futex slot + 65536)) < unmarked q := by
  refine Finset.sum_lt_sum (fun x _ => ?_) ⟨slot, Finset.mem_range.mpr lt, ?_⟩
  · by_cases hx : x = slot
    · subst hx
      simp only [setFutex, Function.update_self]
      split_ifs <;> omega
    · simp only [setFutex, Function.update_of_ne hx, le_rfl]
  · simp only [setFutex, Function.update_self, if_pos low]
    split_ifs <;> omega

/-- A step of a waiter lowers something, unless it spins. -/
theorem advanceWait_nearer {j : Job α} {i : ℕ} {w : Wait} (hp : s.pc t = .wait j i w)
    (ok : w.Ok (j.expected s.q)) (lt : j.slot s.q + i < s.q.capacity)
    (hs : s.advanceWait t j i w = some s') :
    Nearer s s' t ∨ s' = s ∧ s.q.version (j.slot s.q + i) ≠ j.expected s.q := by
  cases w with
  | load =>
    simp only [State.advanceWait] at hs
    split_ifs at hs <;> cases hs
    · exact Or.inl (.of_ready hp)
    · refine Or.inl ?_
      unfold Job.block
      exact .of_noise hp (by split_ifs <;> simp [Wait.noise])
    · exact Or.inl (.of_noise hp (by simp [Wait.noise]))
  | mark word =>
    simp only [State.advanceWait] at hs
    split_ifs at hs with same ready <;> cases hs
    · subst same
      refine Or.inl (.marks ?_ ?_ (unmarked_mark lt ok.1))
      · exact keep_update Pc.claimsLeft (by rw [hp]; exact le_rfl)
      · exact keep_update (Pc.work _) (by rw [hp]; exact le_rfl)
    · exact Or.inl (.of_ready hp)
    · refine Or.inl ?_
      unfold Job.block
      exact .of_noise hp (by split_ifs <;> simp [Wait.noise, same])
  | sleep word =>
    simp only [State.advanceWait] at hs
    split_ifs at hs with same <;> cases hs
    · exact Or.inl (.of_noise hp (by simp [Wait.noise, same]))
    · exact Or.inl (.of_noise hp (by simp [Wait.noise, same]))
  | asleep word => cases hs
  | reload =>
    simp only [State.advanceWait] at hs
    split_ifs at hs <;> cases hs
    · exact Or.inl (.of_ready hp)
    · refine Or.inl ?_
      unfold Job.block
      exact .of_noise hp (by split_ifs <;> simp [Wait.noise])
  | spin =>
    simp only [State.advanceWait] at hs
    split_ifs at hs with ready <;> cases hs
    · exact Or.inl (.of_ready hp)
    · refine Or.inr ⟨?_, ready⟩
      simp only [State.goto, ← hp, Function.update_eq_self]

/-- A call that is not over and does not wait makes a step, which lowers something. -/
theorem Inv.advance_nearer (h : Inv s) (running : (s.pc t).running = true)
    (awake : ∀ j i w, s.pc t ≠ .wait j i w) : ∃ s', s.advance t = some s' ∧ Nearer s s' t := by
  have loc := h.locals t
  unfold State.advance
  cases hp : s.pc t with
  | idle | returned c moved => rw [hp] at running; cases running
  | wait j i w => exact absurd hp (awake j i w)
  | fetchAdd c =>
    refine ⟨_, rfl, .of_claims rfl ?_⟩
    rw [hp]
    exact (claimsLeft_startWait _).trans_lt (Nat.lt_succ_self 1)
  | loadIndex c =>
    obtain ⟨-, call, index, total⟩ := c.job_ok h.sized (by rw [hp] at loc; exact loc.1)
      (s.q.nextIndex c.side)
    refine ⟨_, rfl, .of_work rfl rfl ?_ ?_⟩
    · rw [hp]; exact claimsLeft_startTry _
    · rw [hp]
      unfold Job.startTry
      split_ifs with none
      · simp only [Pc.work]; omega
      · simp only [Pc.work, call, index, if_true]; omega
  | tryCheck j i =>
    rw [hp] at loc
    have lt := loc.2.2.1
    simp only
    split_ifs with differs single first more
    · refine ⟨_, rfl, .of_work rfl rfl (by rw [hp]; exact le_rfl) ?_⟩
      rw [hp]
      simp only [Pc.work]
      split_ifs <;> omega
    · refine ⟨_, rfl, .of_claims rfl ?_⟩
      rw [hp]
      simp only [Pc.claimsLeft]
      split_ifs <;> omega
    · refine ⟨_, rfl, .of_work rfl rfl ?_ ?_⟩
      · rw [hp]
        simp only [Pc.claimsLeft]
        split_ifs <;> omega
      · rw [hp]
        simp only [Pc.work]
        split_ifs <;> omega
    · refine ⟨_, rfl, .of_work rfl rfl (by rw [hp]; exact le_rfl) ?_⟩
      rw [hp]
      simp only [Pc.work]
      split_ifs <;> omega
    · refine ⟨_, rfl, .of_work rfl rfl (by rw [hp]; exact le_rfl) ?_⟩
      rw [hp]
      simp only [Pc.work]
      split_ifs <;> omega
  | tryReload j =>
    simp only
    split_ifs with same
    · refine ⟨_, rfl, .of_claims rfl ?_⟩
      rw [hp]
      simp only [Pc.claimsLeft]
      split_ifs <;> omega
    · refine ⟨_, rfl, .of_work rfl rfl (by rw [hp]; exact le_rfl) ?_⟩
      rw [hp]
      simp only [Pc.work, if_true, if_neg (Ne.symm same)]
      omega
  | tryClaim j =>
    simp only
    have fewer : j.pending < (Pc.tryClaim j).claimsLeft := by
      simp only [Pc.claimsLeft, Job.pending]
      split_ifs <;> omega
    split_ifs with same single
    · exact ⟨_, rfl, .of_claims rfl (by rw [hp]; exact fewer)⟩
    · refine ⟨_, rfl, .of_work rfl rfl (by rw [hp]; exact le_rfl) ?_⟩
      rw [hp]
      simp only [Pc.work, if_true, if_neg (Ne.symm same)]
      omega
    · refine ⟨_, rfl, .of_claims rfl ?_⟩
      rw [hp]
      exact (Nat.zero_le _).trans_lt fewer
  | callback j =>
    refine ⟨_, rfl, .of_work rfl rfl ?_ ?_⟩
    · rw [hp]
      split_ifs
      · exact claimsLeft_finish j
      · exact le_rfl
    · rw [hp]
      split_ifs
      · refine (work_finish j _).trans_lt ?_
        simp only [Pc.work]; omega
      · simp only [Pc.work]; omega
  | publish j i =>
    have finish : j.finish.work s.q.nextIndex < (Pc.publish j i).work s.q.nextIndex := by
      refine (work_finish j _).trans_lt ?_
      simp only [Pc.work]; omega
    simp only
    split_ifs
    · exact ⟨_, rfl, .of_work rfl rfl (by rw [hp]; exact claimsLeft_finish j) (by rwa [hp])⟩
    · refine ⟨_, rfl, .of_work rfl rfl (by rw [hp]; exact le_rfl) ?_⟩
      rw [hp]; simp only [Pc.work]; omega
    · refine ⟨_, rfl, .of_work rfl rfl (by rw [hp]; exact le_rfl) ?_⟩
      rw [hp]; simp only [Pc.work]; omega
    · refine ⟨_, rfl, .of_work rfl rfl (by rw [hp]; exact le_rfl) ?_⟩
      rw [hp]; simp only [Pc.work]; omega
    · exact ⟨_, rfl, .of_work rfl rfl (by rw [hp]; exact claimsLeft_finish j) (by rwa [hp])⟩
  | wakeLoad j i =>
    have next : (j.nextWake i).work s.q.nextIndex < (Pc.wakeLoad j i).work s.q.nextIndex := by
      refine (work_nextWake j _ i).trans ?_
      simp only [Pc.work]; omega
    have claims := claimsLeft_nextWake j i
    simp only
    split_ifs
    · exact ⟨_, rfl, .of_work rfl rfl (by rw [hp]; exact claims) (by rwa [hp])⟩
    · exact ⟨_, rfl, .of_work rfl rfl (by rw [hp]; exact claims) (by rwa [hp])⟩
    · refine ⟨_, rfl, .of_work rfl rfl (by rw [hp]; exact le_rfl) ?_⟩
      rw [hp]; simp only [Pc.work]; omega
  | wakeClear j i word =>
    have next : (j.nextWake i).work s.q.nextIndex < (Pc.wakeClear j i word).work s.q.nextIndex := by
      refine (work_nextWake j _ i).trans ?_
      simp only [Pc.work]; omega
    simp only
    split_ifs
    · refine ⟨_, rfl, .of_work rfl rfl (by rw [hp]; exact le_rfl) ?_⟩
      rw [hp]; simp only [Pc.work]; omega
    · exact ⟨_, rfl, .of_work rfl rfl (by rw [hp]; exact claimsLeft_nextWake j i) (by rwa [hp])⟩
  | wakeAll j i =>
    have next := work_nextWake j s.q.nextIndex i
    refine ⟨_, rfl, .works (fun u => ?_) ⟨?_, fun u hu => ?_⟩⟩
    · by_cases hu : u = t
      · subst hu
        simp only [Function.update_self, hp]
        exact claimsLeft_nextWake j i
      · simp only [Function.update_of_ne hu, claimsLeft_awaken, le_rfl]
    · simp only [Function.update_self, hp]
      exact next
    · simp only [Function.update_of_ne hu, work_awaken, le_rfl]

/-- Only a running call makes steps. -/
theorem State.running_of_moves (hs : s.advance t = some s') : (s.pc t).running = true := by
  cases hp : s.pc t <;> first | rfl | simp [State.advance, hp] at hs

/-- Every step lowers something, unless it spins on a slot that is not ready. -/
theorem Inv.step_nearer (h : Inv s) (watched : s.Watched) (hs : s.advance t = some s') :
    Nearer s s' t ∨ s' = s ∧ ∃ j i w, s.pc t = .wait j i w ∧
      s.q.version (j.slot s.q + i) ≠ j.expected s.q := by
  by_cases waits : ∃ j i w, s.pc t = .wait j i w
  · obtain ⟨j, i, w, hp⟩ := waits
    have ok := watched.ok t
    have loc := h.locals t
    rw [hp] at ok loc
    have lt : j.slot s.q + i < s.q.capacity := by
      rw [h.slot_add loc.1 loc.2.1]
      exact Nat.mod_lt _ h.sized.capacity_pos
    simp only [State.advance, hp] at hs
    refine (advanceWait_nearer hp ok lt hs).imp_right fun rests => ?_
    exact ⟨rests.1, j, i, w, hp, rests.2⟩
  · push Not at waits
    obtain ⟨r, hr, nearer⟩ := h.advance_nearer (State.running_of_moves hs) waits
    cases hs.symm.trans hr
    exact Or.inl nearer

/-- Where some running call is not stuck, some running call makes a step that lowers something. -/
theorem Inv.help (h : Inv s) (watched : s.Watched) (far : ¬Stalled s) :
    ∃ t, (s.pc t).running = true ∧ ∃ s', s.advance t = some s' ∧ s' ≠ s := by
  unfold Stalled at far
  push Not at far
  obtain ⟨t, running, free⟩ := far
  by_cases waits : ∃ j i w, s.pc t = .wait j i w
  · obtain ⟨j, i, w, hp⟩ := waits
    have loc := h.locals t
    have ok := watched.ok t
    rw [hp] at free loc ok
    have ready : s.q.version (j.slot s.q + i) = j.expected s.q := by
      rw [h.expected_eq loc.1 loc.2.1, h.slot_add loc.1 loc.2.1,
        h.word _ (Nat.mod_lt _ h.sized.capacity_pos)]
      exact congrArg u16 (not_not.mp free)
    have moves : ∀ s', s.advance t = some s' → s' ≠ s := by
      intro s' hs
      obtain nearer | ⟨-, j', i', w', hp', differs⟩ := h.step_nearer watched hs
      · exact nearer.ne
      · cases hp.symm.trans hp'
        exact absurd ready differs
    cases w with
    | asleep word =>
      -- the version has changed, so somebody has a wake-up ahead
      have changed : s.q.futex (j.slot s.q + i) ≠ word := by
        rintro rfl
        exact ok.2 ready
      obtain ⟨u, covers⟩ := (watched.woken t _ word ⟨j, i, hp, rfl⟩).resolve_left changed
      have busy : (s.pc u).running = true ∧ ∀ j i w, s.pc u ≠ .wait j i w := by
        cases hu : s.pc u <;> rw [hu] at covers <;> first
          | exact covers.elim
          | exact ⟨rfl, fun _ _ _ => nofun⟩
      obtain ⟨s', hs, nearer⟩ := h.advance_nearer busy.1 busy.2
      exact ⟨u, busy.1, s', hs, nearer.ne⟩
    | load | mark word | sleep word | reload | spin =>
      obtain ⟨s', hs⟩ : ∃ s', s.advance t = some s' := by
        simp only [State.advance, hp, State.advanceWait]
        split_ifs <;> exact ⟨_, rfl⟩
      exact ⟨t, running, s', hs, moves s' hs⟩
  · push Not at waits
    obtain ⟨s', hs, nearer⟩ := h.advance_nearer running waits
    exact ⟨t, running, s', hs, nearer.ne⟩

/-- A step of a thread neither starts nor restarts a call. -/
theorem State.running_of_advance (hs : s.advance t = some s') {u : Tid}
    (running : (s'.pc u).running = true) : (s.pc u).running = true := by
  by_cases hu : u = t
  · subst hu
    exact State.running_of_moves hs
  · obtain same | ⟨j, i, -, awaken⟩ := (advance_effect hs).2.others hu
    · rwa [same] at running
    · rw [awaken] at running
      cases hp : s.pc u <;> rw [hp] at running <;> first | rfl | exact running

end Steps

/-! ## Runs -/

/-- All running calls belong to these threads. -/
def Within (S : Finset Tid) (s : State Tid α) : Prop := ∀ t, (s.pc t).running = true → t ∈ S

variable [DecidableEq Tid]

/-- Calls obey the discipline of the queue and wake. -/
def disciplinedWaking (s : State Tid α) (m : Tid × Move α) (s' : State Tid α) : Prop :=
  disciplined s m s' ∧ State.waking s m s'

/-- Only finitely many calls run at a time. -/
theorem within_of_reach {zero : α} {minCapacity : ℕ}
    {ok : State Tid α → Tid × Move α → State Tid α → Prop} {s : State Tid α}
    (h : (machine Tid zero minCapacity).Reach ok s) : ∃ S : Finset Tid, Within S s := by
  refine h.inv (P := fun s => ∃ S : Finset Tid, Within S s) ?_ ?_
  · rintro s rfl
    exact ⟨∅, fun t running => by cases running⟩
  · rintro s ⟨t, m⟩ s' ⟨S, within⟩ hs -
    refine ⟨insert t S, fun u running => ?_⟩
    by_cases hu : u = t
    · exact hu ▸ Finset.mem_insert_self ..
    refine Finset.mem_insert_of_mem (within u ?_)
    obtain same | ⟨j, i, -, awaken⟩ := (State.step_effect hs).2.others hu
    · rwa [same] at running
    · rw [awaken] at running
      cases hp : s.pc u <;> rw [hp] at running <;> first | rfl | exact running

/-- From every state that disciplined calls reach, and without new calls, every schedule that
keeps giving the running calls their turn leads to a state in which the calls that still run wait
for tickets without a partner. -/
theorem settles (zero : α) (minCapacity : ℕ) {s : State Tid α}
    (h : (machine Tid zero minCapacity).Reach disciplinedWaking s) {turn : ℕ → Tid}
    (fair : FairFor (fun t => (s.pc t).running = true) turn)
    (spans : ∀ n, Spans (play State.advance s turn n)) :
    ∃ n, Settled (play State.advance s turn n) := by
  obtain ⟨S, within⟩ := within_of_reach h
  have inv := reach_inv zero minCapacity (h.mono fun _ _ _ side => side.1)
  have waking : s.Obeys fun c => c.wake = true :=
    State.obeys_of_reach (fun _ _ _ _ side => side.2 _ rfl) h
  have watched := State.watched_of_reach (h.mono fun _ _ _ side => side.2)
  let good (r : State Tid α) : Prop := Inv r ∧ r.Watched ∧ (r.Obeys fun c => c.wake = true) ∧
    ∀ t, (r.pc t).running = true → (s.pc t).running = true
  have keep : ∀ s₁ t s₂, good s₁ → Spans s₁ → s₁.advance t = some s₂ → good s₂ := by
    rintro s₁ t s₂ ⟨inv, watched, waking, old⟩ spans hs
    obtain ⟨same, effect⟩ := State.advance_effect hs
    exact ⟨inv.advance spans hs, watched.step same effect fun c hc => waking t c hc,
      waking.step (m := .step) (fun _ eq => by cases eq) hs,
      fun u running => old u (State.running_of_advance hs running)⟩
  have start : good s := ⟨inv, watched, waking, fun _ => id⟩
  obtain ⟨n, stalled⟩ : ∃ n, Stalled (play State.advance s turn n) := eventually_of_fair
    (μ := remaining S) start keep
    (fun s₁ t s₂ hg _ hs => by
      obtain nearer | ⟨same, -⟩ := hg.1.step_nearer hg.2.1 hs
      · exact Or.inr (nearer.lower (within t (hg.2.2.2 t (State.running_of_moves hs))))
      · exact Or.inl same)
    (fun s₁ hg far => by
      obtain ⟨t, running, moves⟩ := hg.1.help hg.2.1 far
      exact ⟨t, hg.2.2.2 t running, moves⟩)
    fair spans
  exact ⟨n, (play_inv start keep spans n).1.settled stalled⟩

/-- A batch pop of two and a batch push of two on a ring of two slots enter together. -/
def partners : State ℕ ℕ :=
  ((fresh ℕ 0 2).goto 0 (.fetchAdd ⟨.cons, some 2, false, true, true, fun _ => 0⟩)).goto 1
    (.fetchAdd ⟨.prod, some 2, false, true, true, fun i => 7 + i⟩)

theorem partners_reach : (machine ℕ 0 2).Reach disciplinedWaking partners := by
  have spans : ∀ s : State ℕ ℕ, (∀ t, (s.pc t).Holds = fun _ _ => False) → Spans s := by
    intro s none t u σ j k held
    rw [none] at held
    exact held.elim
  refine .step (i := (1, .call ⟨.prod, some 2, false, true, true, fun i => 7 + i⟩))
    (.step (i := (0, .call ⟨.cons, some 2, false, true, true, fun _ => 0⟩)) (.start rfl) rfl ?_)
    rfl ?_
  · exact ⟨⟨by rintro _ ⟨⟩; decide, spans _ fun _ => rfl⟩, by rintro _ ⟨⟩; rfl⟩
  · refine ⟨⟨by rintro _ ⟨⟩; decide, spans _ fun t => ?_⟩, by rintro _ ⟨⟩; rfl⟩
    by_cases ht : t = 0
    · subst ht; rfl
    · simp [State.goto, ht, fresh]; rfl

/-- The pop marks both slots' words and sleeps until the push has stored both versions. -/
theorem settles_partners : ∃ n, Settled (play State.advance partners (· % 2) n) := by
  have within : Within {0, 1} partners := by
    intro t running
    by_contra out
    simp only [Finset.mem_insert, Finset.mem_singleton, not_or] at out
    simp [partners, State.goto, out.1, out.2, fresh, Pc.running] at running
  have later : ∀ n, Within {0, 1} (play State.advance partners (· % 2) n) :=
    play_inv within
      (fun _ _ _ h (_ : True) hs u running => h u (State.running_of_advance hs running)) fun _ => trivial
  have stuck : ∀ t, (play State.advance partners (· % 2) 60).advance t = none := by
    intro t
    by_cases ht : t ∈ ({0, 1} : Finset ℕ)
    · have ends : ∀ t ∈ ({0, 1} : Finset ℕ),
          ((play State.advance partners (· % 2) 60).advance t).isNone = true := by decide +kernel
      exact Option.isNone_iff_eq_none.mp (ends t ht)
    · refine Option.eq_none_iff_forall_ne_some.mpr fun s' hs => ht ?_
      exact later 60 t (State.running_of_moves hs)
  have few : ∀ n σ, (play State.advance partners (· % 2) n).q.nextIndex σ ≤
      32767 * (play State.advance partners (· % 2) n).q.capacity := by
    refine play_forall_of_stuck (P := fun s => ∀ σ, s.q.nextIndex σ ≤ 32767 * s.q.capacity) stuck ?_
    intro n hn σ
    have all : ∀ n ≤ 60, (play State.advance partners (· % 2) n).q.nextIndex .prod ≤
        32767 * (play State.advance partners (· % 2) n).q.capacity ∧
          (play State.advance partners (· % 2) n).q.nextIndex .cons ≤
            32767 * (play State.advance partners (· % 2) n).q.capacity := by decide +kernel
    cases σ
    · exact (all n hn).1
    · exact (all n hn).2
  have inv : ∀ n, Inv (play State.advance partners (· % 2) n) :=
    play_inv (reach_inv 0 2 (partners_reach.mono fun _ _ _ side => side.1))
      (fun s _ _ inv (few : ∀ σ, s.q.nextIndex σ ≤ 32767 * s.q.capacity) hs =>
        inv.advance (inv.spans_of_short few) hs) few
  refine settles 0 2 partners_reach ?_ fun n => (inv n).spans_of_short (few n)
  intro t running n
  have lt : t < 2 := (by decide : ∀ t ∈ ({0, 1} : Finset ℕ), t < 2) t (within t running)
  exact ⟨2 * n + t, by omega, show (2 * n + t) % 2 = t by omega⟩

end Fuxi.Base.BoundedQueue
