import Mathlib.Data.List.Nodup
import Fuxi.Base.BoundedQueue.Interleaving

/-!
# The invariant of the interleaved queue

A ticket is held from its claim until its slot is published. The invariant says that the
tickets that are claimed and not published are held by one thread each, that a slot never
is ahead of a ticket that is not published, and that the version in the futex word is the
number of publications of the slot, compressed to 16 bits.

A thread compares compressed versions. When they agree but the numbers differ, then the
slot is at least `2^15` rounds behind, and the tickets in between are still held. So the
comparison is right as long as the held tickets of a side lie in fewer than `2^15` rounds.
-/

namespace Fuxi.Base.BoundedQueue

open Lib

variable {α Tid : Type*}

/-- The slot of a ticket waits for the operation of this ticket. -/
def Ready (c : Nat) (h : History α) (σ : Side) (k : Nat) : Prop := h.ver (k % c) = phase c σ k

/-- The part of a job that is not done is well placed: it lies in one round, a second
part starts the next round, and a single call has one ticket. -/
structure JobOk (c : Nat) (j : Job α) : Prop where
  fits : j.index % c + j.num ≤ c
  second : j.rest ≠ 0 → (j.index + j.num) % c = 0 ∧ j.rest ≤ c
  single : j.call.batch = none → j.num = 1 ∧ j.rest = 0

/-- The tickets of the second part are claimed by a blocking call only. -/
def Job.restClaimed (j : Job α) : Nat := if j.call.trying then 0 else j.rest

/-- The thread holds the ticket: it has claimed it and not published its slot yet. -/
def Pc.Holds : Pc α → Side → Nat → Prop
  | .wait j _ _, σ, k | .callback j, σ, k =>
    σ = j.call.side ∧ j.index ≤ k ∧ k < j.index + j.num + j.restClaimed
  | .publish j i, σ, k =>
    σ = j.call.side ∧ j.index + i ≤ k ∧ k < j.index + j.num + j.restClaimed
  | .wakeLoad j _, σ, k | .wakeClear j _ _, σ, k | .wakeAll j _, σ, k =>
    σ = j.call.side ∧ j.index + j.num ≤ k ∧ k < j.index + j.num + j.restClaimed
  | .idle, _, _ | .fetchAdd _, _, _ | .loadIndex _, _, _ | .tryCheck _ _, _, _
  | .tryReload _, _, _ | .tryClaim _, _, _ | .returned _ _, _, _ => False

/-- The callback of the ticket has run, and its slot is about to be published. -/
def Pc.Publishing : Pc α → Side → Nat → Prop
  | .publish j i, σ, k => σ = j.call.side ∧ j.index + i ≤ k ∧ k < j.index + j.num
  | .idle, _, _ | .fetchAdd _, _, _ | .wait _ _ _, _, _ | .loadIndex _, _, _
  | .tryCheck _ _, _, _ | .tryReload _, _, _ | .tryClaim _, _, _ | .callback _, _, _
  | .wakeLoad _ _, _, _ | .wakeClear _ _ _, _, _ | .wakeAll _ _, _, _
  | .returned _ _, _, _ => False

/-- What a thread knows at each point of its call; `next` are the next indices. -/
def Local (c : Nat) (next : Side → Nat) (h : History α) : Pc α → Prop
  | .idle | .returned _ _ => True
  | .fetchAdd k => k.num ≤ c ∧ k.trying = false
  | .loadIndex k => k.num ≤ c ∧ k.trying = true
  | .wait j i _ =>
    JobOk c j ∧ i < j.num ∧ ∀ i' < i, Ready c h j.call.side (j.index + i')
  | .callback j =>
    JobOk c j ∧ j.index + j.num ≤ next j.call.side ∧
      ∀ i < j.num, Ready c h j.call.side (j.index + i)
  | .publish j i =>
    JobOk c j ∧ j.index + j.num ≤ next j.call.side ∧ i < j.num ∧ ∀ i', i ≤ i' → i' < j.num →
      Ready c h j.call.side (j.index + i') ∧ ∃ v, (j.index + i', v) ∈ h.ran j.call.side
  | .wakeLoad j _ | .wakeClear j _ _ | .wakeAll j _ =>
    JobOk c j ∧ j.index + j.num ≤ next j.call.side
  | .tryCheck j i =>
    JobOk c j ∧ j.call.trying = true ∧ i < j.num ∧ j.index ≤ next j.call.side ∧
      (next j.call.side = j.index → ∀ i' < i, Ready c h j.call.side (j.index + i'))
  | .tryReload j =>
    JobOk c j ∧ j.call.trying = true ∧ j.call.batch = none ∧ j.index ≤ next j.call.side
  | .tryClaim j =>
    JobOk c j ∧ j.call.trying = true ∧ 0 < j.num ∧ j.index ≤ next j.call.side ∧
      (next j.call.side = j.index → ∀ i < j.num, Ready c h j.call.side (j.index + i))

/-- The invariant of all reachable states. -/
structure Inv (s : State Tid α) : Prop where
  sized : s.q.Sized
  word : ∀ slot < s.q.capacity, s.q.version slot = u16 (s.hist.ver slot)
  claimed : ∀ t σ k, (s.pc t).Holds σ k → k < s.q.nextIndex σ
  low : ∀ t σ k, (s.pc t).Holds σ k → s.hist.ver (k % s.q.capacity) ≤ phase s.q.capacity σ k
  unique : ∀ t u σ k, (s.pc t).Holds σ k → (s.pc u).Holds σ k → t = u
  cover : ∀ σ k, k < s.q.nextIndex σ → s.hist.ver (k % s.q.capacity) ≤ phase s.q.capacity σ k →
    ∃ t, (s.pc t).Holds σ k
  fresh : ∀ σ k, s.q.nextIndex σ ≤ k → s.hist.ver (k % s.q.capacity) ≤ phase s.q.capacity σ k
  locals : ∀ t, Local s.q.capacity s.q.nextIndex s.hist (s.pc t)
  ranOnce : ∀ σ, ((s.hist.ran σ).map Prod.fst).Nodup
  ranDone : ∀ σ r, r ∈ s.hist.ran σ →
    phase s.q.capacity σ r.1 < s.hist.ver (r.1 % s.q.capacity) ∨ ∃ t, (s.pc t).Publishing σ r.1
  wrote : ∀ k, phase s.q.capacity .prod k < s.hist.ver (k % s.q.capacity) →
    ∃ v, (k, v) ∈ s.hist.ran .prod
  content : ∀ r ∈ s.hist.ran .prod,
    s.hist.ver (r.1 % s.q.capacity) ≤ phase s.q.capacity .cons r.1 →
      s.q.value (r.1 % s.q.capacity) = r.2
  received : ∀ r ∈ s.hist.ran .cons, r ∈ s.hist.ran .prod
  claims : ∀ σ, (s.hist.claims σ).Pairwise (fun a b => b.1 + b.2 ≤ a.1) ∧
    (∀ a ∈ s.hist.claims σ, a.1 + a.2 ≤ s.q.nextIndex σ) ∧
    ∀ k < s.q.nextIndex σ, ∃ a ∈ s.hist.claims σ, a.1 ≤ k ∧ k < a.1 + a.2

/-- The held tickets of each side lie in fewer than `2^15` rounds. -/
def Spans (s : State Tid α) : Prop :=
  ∀ t u σ j k, (s.pc t).Holds σ j → (s.pc u).Holds σ k →
    j / s.q.capacity + 1 < k / s.q.capacity + 32768

theorem Pc.Publishing.holds {p : Pc α} {σ : Side} {k : Nat} (h : p.Publishing σ k) :
    p.Holds σ k := by
  cases p <;> simp only [Pc.Publishing] at h
  exact ⟨h.1, h.2.1, by omega⟩

/-! ## Where a job goes on -/

namespace Job

variable (j : Job α) (i word : Nat)

/-- All tickets of a job. -/
def tickets : Side → Nat → Prop :=
  fun σ k => σ = j.call.side ∧ j.index ≤ k ∧ k < j.index + j.num + j.restClaimed

/-- The tickets of the second part. -/
def after : Side → Nat → Prop :=
  fun σ k => σ = j.call.side ∧ j.index + j.num ≤ k ∧ k < j.index + j.num + j.restClaimed

@[simp] theorem startWait_holds : j.startWait.Holds = j.tickets := by
  unfold startWait; split_ifs <;> rfl

@[simp] theorem startWait_publishing : j.startWait.Publishing = fun _ _ => False := by
  unfold startWait; split_ifs <;> rfl

@[simp] theorem startTry_holds : j.startTry.Holds = fun _ _ => False := by
  unfold startTry; split_ifs <;> rfl

@[simp] theorem startTry_publishing : j.startTry.Publishing = fun _ _ => False := by
  unfold startTry; split_ifs <;> rfl

@[simp] theorem ready_holds : (j.ready i).Holds = j.tickets := by
  unfold ready; split_ifs <;> rfl

@[simp] theorem ready_publishing : (j.ready i).Publishing = fun _ _ => False := by
  unfold ready; split_ifs <;> rfl

@[simp] theorem block_holds : (j.block i word).Holds = j.tickets := rfl

@[simp] theorem block_publishing : (j.block i word).Publishing = fun _ _ => False := rfl

@[simp] theorem finish_holds : j.finish.Holds = j.after := by
  funext σ k
  have rest : j.restClaimed = if j.call.trying then 0 else j.rest := rfl
  unfold finish
  split_ifs with none trying
  · have : j.restClaimed = 0 := by rw [rest, none]; split_ifs <;> rfl
    simp only [Pc.Holds, after, eq_iff_iff, false_iff]; omega
  · rw [if_pos trying] at rest
    simp only [startTry_holds, after, eq_iff_iff, false_iff]; omega
  · rw [if_neg trying] at rest
    simp [tickets, after, second, restClaimed, trying]

@[simp] theorem finish_publishing : j.finish.Publishing = fun _ _ => False := by
  unfold finish
  split_ifs
  · rfl
  · simp
  · simp

@[simp] theorem nextWake_holds : (j.nextWake i).Holds = j.after := by
  unfold nextWake
  split_ifs
  · rfl
  · simp

@[simp] theorem nextWake_publishing : (j.nextWake i).Publishing = fun _ _ => False := by
  unfold nextWake
  split_ifs
  · rfl
  · simp

end Job

namespace JobOk

variable {c : Nat} {j : Job α} {next : Side → Nat} {h : History α}

theorem second_ok (ok : JobOk c j) (some : j.rest ≠ 0) : JobOk c j.second := by
  obtain ⟨start, fits⟩ := ok.second some
  refine ⟨?_, fun h => absurd rfl h, fun single => absurd (ok.single single).2 some⟩
  simp only [Job.second]
  omega

theorem finish_local (ok : JobOk c j) (below : j.index + j.num ≤ next j.call.side) :
    Local c next h j.finish := by
  unfold Job.finish
  split_ifs with none trying
  · trivial
  · have pos : j.second.num ≠ 0 := none
    rw [Job.startTry, if_neg pos]
    exact ⟨ok.second_ok none, trying, Nat.pos_of_ne_zero pos, below,
      fun _ i hi => absurd hi (Nat.not_lt_zero i)⟩
  · have pos : j.second.num ≠ 0 := none
    rw [Job.startWait, if_neg pos]
    exact ⟨ok.second_ok none, Nat.pos_of_ne_zero pos, fun i hi => absurd hi (Nat.not_lt_zero i)⟩

theorem nextWake_local (ok : JobOk c j) (below : j.index + j.num ≤ next j.call.side) (i : Nat) :
    Local c next h (j.nextWake i) := by
  unfold Job.nextWake
  split_ifs
  · exact ⟨ok, below⟩
  · exact ok.finish_local below

/-- A slot more is ready. -/
theorem ready_local (ok : JobOk c j) (below : j.index + j.num ≤ next j.call.side) {i : Nat}
    (hi : i < j.num) (before : ∀ i' < i, Ready c h j.call.side (j.index + i'))
    (now : Ready c h j.call.side (j.index + i)) : Local c next h (j.ready i) := by
  have upTo : ∀ i' < i + 1, Ready c h j.call.side (j.index + i') := by
    intro i' hi'
    rcases Nat.lt_succ_iff_lt_or_eq.mp hi' with lt | rfl
    · exact before i' lt
    · exact now
  unfold Job.ready
  split_ifs with more
  · exact ⟨ok, more, upTo⟩
  · exact ⟨ok, below, fun i' hi' => upTo i' (by omega)⟩

/-- A single call may be tried again at any index. -/
theorem reindex (ok : JobOk c j) (pos : 0 < c) (single : j.call.batch = none) (index : Nat) :
    JobOk c { j with index := index } := by
  obtain ⟨one, zero⟩ := ok.single single
  refine ⟨?_, fun h => absurd zero h, fun _ => ⟨one, zero⟩⟩
  simp only [one]
  exact Nat.mod_lt index pos

end JobOk

/-- A call starts with a job that lies in one round. -/
theorem Call.job_ok {q : BoundedQueue α} (sized : q.Sized) (c : Call α) (fits : c.num ≤ q.capacity)
    (index : Nat) : JobOk q.capacity (c.job q index) ∧ (c.job q index).call = c ∧
      (c.job q index).index = index ∧ (c.job q index).num + (c.job q index).rest = c.num := by
  have pos := sized.capacity_pos
  have hd := Nat.div_add_mod index q.capacity
  have hm := Nat.mod_lt index pos
  have start : index - index % q.capacity = q.capacity * (index / q.capacity) := by omega
  have next : q.nextRoundBeginIndex index = q.capacity * (index / q.capacity) + q.capacity := by
    rw [sized.nextRoundBeginIndex_eq, Nat.succ_mul, Nat.mul_comm]
  unfold Call.job
  simp only
  split_ifs with le
  · refine ⟨⟨?_, fun h => absurd rfl h, fun single => ⟨?_, rfl⟩⟩, rfl, rfl, Nat.add_zero _⟩
    · simp only; omega
    · simp only at single; simp [Call.num, single]
  · refine ⟨⟨?_, fun _ => ⟨?_, ?_⟩, fun single => ?_⟩, rfl, rfl, ?_⟩
    · simp only; omega
    · simp only
      rw [Nat.add_sub_cancel' (by omega), next, Nat.add_mod_right, Nat.mul_mod_right]
    · simp only; omega
    · simp only at single
      have one : c.num = 1 := by simp [Call.num, single]
      omega
    · simp only; omega

@[simp] theorem awaken_holds (q : BoundedQueue α) (slot : Nat) (p : Pc α) :
    (p.awaken q slot).Holds = p.Holds := by
  unfold Pc.awaken
  split
  · split_ifs <;> rfl
  · rfl

@[simp] theorem awaken_publishing (q : BoundedQueue α) (slot : Nat) (p : Pc α) :
    (p.awaken q slot).Publishing = p.Publishing := by
  unfold Pc.awaken
  split
  · split_ifs <;> rfl
  · rfl

@[simp] theorem awaken_local (c : Nat) (next : Side → Nat) (h : History α) (q : BoundedQueue α)
    (slot : Nat) (p : Pc α) : Local c next h (p.awaken q slot) = Local c next h p := by
  unfold Pc.awaken
  split
  · split_ifs <;> rfl
  · rfl

/-- What a thread knows survives the steps of the others: next indices and callbacks
only get more, and the slots of its own tickets and of tickets nobody has claimed stay. -/
theorem Local.mono {c : Nat} {next next' : Side → Nat} {h h' : History α} {p : Pc α}
    (loc : Local c next h p) (grow : ∀ σ, next σ ≤ next' σ)
    (ran : ∀ σ r, r ∈ h.ran σ → r ∈ h'.ran σ)
    (held : ∀ σ k, p.Holds σ k → Ready c h σ k → Ready c h' σ k)
    (unclaimed : ∀ σ k, next σ ≤ k → Ready c h σ k → Ready c h' σ k) : Local c next' h' p := by
  cases p with
  | idle => trivial
  | returned k m => trivial
  | fetchAdd k => exact loc
  | loadIndex k => exact loc
  | wait j i w =>
    refine ⟨loc.1, loc.2.1, fun i' hi => held _ _ ⟨rfl, ?_, ?_⟩ (loc.2.2 i' hi)⟩ <;>
      have := loc.2.1 <;> omega
  | callback j =>
    refine ⟨loc.1, loc.2.1.trans (grow _), fun i hi => held _ _ ⟨rfl, ?_, ?_⟩ (loc.2.2 i hi)⟩ <;>
      omega
  | publish j i =>
    refine ⟨loc.1, loc.2.1.trans (grow _), loc.2.2.1, fun i' lo hi => ?_⟩
    obtain ⟨ready, v, hv⟩ := loc.2.2.2 i' lo hi
    exact ⟨held _ _ ⟨rfl, by omega, by omega⟩ ready, v, ran _ _ hv⟩
  | wakeLoad j i => exact ⟨loc.1, loc.2.trans (grow _)⟩
  | wakeClear j i w => exact ⟨loc.1, loc.2.trans (grow _)⟩
  | wakeAll j i => exact ⟨loc.1, loc.2.trans (grow _)⟩
  | tryCheck j i =>
    obtain ⟨ok, trying, lt, le, ready⟩ := loc
    refine ⟨ok, trying, lt, le.trans (grow _), fun eq i' hi => ?_⟩
    have := grow j.call.side
    exact unclaimed _ _ (by omega) (ready (by omega) i' hi)
  | tryReload j => exact ⟨loc.1, loc.2.1, loc.2.2.1, loc.2.2.2.trans (grow _)⟩
  | tryClaim j =>
    obtain ⟨ok, trying, pos, le, ready⟩ := loc
    refine ⟨ok, trying, pos, le.trans (grow _), fun eq i hi => ?_⟩
    have := grow j.call.side
    exact unclaimed _ _ (by omega) (ready (by omega) i hi)

namespace Inv

variable {s : State Tid α}

/-- A slot whose compressed version is that of an unpublished ticket waits for this
ticket, if the unpublished tickets of earlier rounds are held within `2^15` rounds. -/
theorem ready_of_version (h : Inv s) (spans : Spans s) {σ : Side} {k : Nat}
    (low : s.hist.ver (k % s.q.capacity) ≤ phase s.q.capacity σ k)
    (below : k < s.q.nextIndex σ + s.q.capacity)
    (eq : u16 (s.hist.ver (k % s.q.capacity)) = u16 (phase s.q.capacity σ k)) :
    Ready s.q.capacity s.hist σ k := by
  by_contra ne
  have c0 := h.sized.capacity_pos
  generalize hc : s.q.capacity = c at *
  have lt : s.hist.ver (k % c) < phase c σ k := lt_of_le_of_ne low ne
  have far : s.hist.ver (k % c) + 65536 ≤ phase c σ k := by
    unfold u16 at eq; omega
  -- the last ticket of the slot in an earlier round, and the first one not published
  obtain ⟨m, hm⟩ : ∃ m, phase c σ k = s.hist.ver (k % c) + 2 * m := by
    refine ⟨(phase c σ k - s.hist.ver (k % c)) / 2, ?_⟩
    unfold u16 at eq; omega
  have big : 32768 ≤ m := by omega
  have epochs : m ≤ k / c := by
    cases σ <;> simp only [phase] at hm <;> omega
  have room : c * m ≤ k := (Nat.mul_le_mul_left c epochs).trans (Nat.mul_div_le k c)
  have one : c * 1 ≤ c * m := Nat.mul_le_mul_left c (by omega)
  have firstSlot : (k - c * m) % c = k % c := by
    rw [← Nat.add_mul_mod_self_left (k - c * m) c m, Nat.sub_add_cancel room]
  have firstEpoch : (k - c * m) / c = k / c - m := Nat.sub_mul_div k c m
  have lastSlot : (k - c) % c = k % c := by
    rw [← Nat.add_mod_right (k - c), Nat.sub_add_cancel (by omega)]
  have lastEpoch : (k - c) / c = k / c - 1 := by
    have := Nat.sub_mul_div k c 1
    rwa [Nat.mul_one] at this
  obtain ⟨t, ht⟩ := h.cover σ (k - c * m) (by omega) (by
    rw [hc, firstSlot]
    cases σ <;> simp only [phase, firstEpoch] at hm ⊢ <;> omega)
  obtain ⟨u, hu⟩ := h.cover σ (k - c) (by omega) (by
    rw [hc, lastSlot]
    cases σ <;> simp only [phase, lastEpoch] at hm ⊢ <;> omega)
  have := spans u t σ _ _ hu ht
  rw [hc, lastEpoch, firstEpoch] at this
  omega

/-- The slots of a part follow each other, as do its tickets. -/
theorem slot_add (h : Inv s) {j : Job α} (ok : JobOk s.q.capacity j) {i : Nat} (hi : i < j.num) :
    j.slot s.q + i = (j.index + i) % s.q.capacity := by
  rw [Job.slot, h.sized.slotIndex_eq, (round_add ok.fits hi).1]

/-- The expected version of a part is the compressed phase of all of its tickets. -/
theorem expected_eq (h : Inv s) {j : Job α} (ok : JobOk s.q.capacity j) {i : Nat}
    (hi : i < j.num) : j.expected s.q = u16 (phase s.q.capacity j.call.side (j.index + i)) := by
  rw [Job.expected, h.sized.expectedVersion_eq, phase_add _ ok.fits hi]

theorem publishing_ready (h : Inv s) {t : Tid} {σ : Side} {k : Nat}
    (pub : (s.pc t).Publishing σ k) : Ready s.q.capacity s.hist σ k := by
  have loc := h.locals t
  cases hp : s.pc t <;> rw [hp] at pub loc <;> simp only [Pc.Publishing] at pub
  case publish j i =>
    obtain ⟨rfl, lo, hi⟩ := pub
    have := (loc.2.2.2 (k - j.index) (by omega) (by omega)).1
    rwa [Nat.add_sub_cancel' (by omega)] at this

/-! ## Callbacks -/

section Callback

variable {t : Tid} {j : Job α} {i : Nat} {r : Nat × α}

theorem callback_ok (h : Inv s) (hp : s.pc t = .callback j) :
    JobOk s.q.capacity j ∧ ∀ i < j.num, Ready s.q.capacity s.hist j.call.side (j.index + i) := by
  have loc := h.locals t
  rw [hp] at loc
  exact ⟨loc.1, loc.2.2⟩

/-- Nobody publishes a ticket whose callback is about to run. -/
theorem callback_alone (h : Inv s) (hp : s.pc t = .callback j) (hi : i < j.num) (u : Tid) :
    ¬(s.pc u).Publishing j.call.side (j.index + i) := by
  intro pub
  have mine : (s.pc t).Holds j.call.side (j.index + i) := by
    rw [hp]
    exact ⟨rfl, by omega, by omega⟩
  have := h.unique u t _ _ pub.holds mine
  subst this
  rw [hp] at pub
  exact pub

/-- The callback of a ticket that waits for it has not run before. -/
theorem callback_new (h : Inv s) (hp : s.pc t = .callback j) (hi : i < j.num)
    (hr : r ∈ s.hist.ran j.call.side) : r.1 ≠ j.index + i := by
  intro eq
  obtain done | ⟨u, pub⟩ := h.ranDone _ r hr
  · have ready := (h.callback_ok hp).2 i hi
    rw [Ready] at ready
    rw [eq] at done
    omega
  · exact h.callback_alone hp hi u (eq ▸ pub)

theorem callback_ranOnce (h : Inv s) (hp : s.pc t = .callback j) (τ : Side) :
    (((s.hist.run j.call.side (j.results s.q)).ran τ).map Prod.fst).Nodup := by
  by_cases e : τ = j.call.side
  · subst e
    simp only [History.run, Function.update_self, List.map_append, Job.results_keys]
    have inj : Function.Injective (j.index + ·) := fun a b hab => by simpa using hab
    refine List.nodup_append.mpr ⟨List.Nodup.map inj List.nodup_range, h.ranOnce _, ?_⟩
    intro a ha b hb eq
    obtain ⟨i, hi, rfl⟩ := List.mem_map.mp ha
    obtain ⟨r, hr, rfl⟩ := List.mem_map.mp hb
    exact h.callback_new hp (List.mem_range.mp hi) hr eq.symm
  · simpa [History.run, e] using h.ranOnce τ

/-- A push writes the slots of its tickets, and no element that is still to be received. -/
theorem callback_content (h : Inv s) (hp : s.pc t = .callback j)
    (hr : r ∈ (s.hist.run j.call.side (j.results s.q)).ran .prod)
    (low : s.hist.ver (r.1 % s.q.capacity) ≤ phase s.q.capacity .cons r.1) :
    j.written s.q (r.1 % s.q.capacity) = r.2 := by
  obtain ⟨ok, ready⟩ := h.callback_ok hp
  rw [Job.written]
  obtain ⟨side, hr'⟩ | hr' := (s.hist.mem_run _ _).mp hr
  · obtain ⟨i, hi, rfl⟩ := (j.mem_results s.q).mp hr'
    simp only [← h.slot_add ok hi, ← side, if_true]
    rw [if_pos ⟨trivial, by omega, by omega⟩, Nat.add_sub_cancel_left]
  · rw [if_neg, h.content r hr' low]
    rintro ⟨side, lo, hi⟩
    -- the slot waits for a push, so the element it holds is not there yet
    have inPart : r.1 % s.q.capacity - j.slot s.q < j.num := by omega
    have slot := h.slot_add ok inPart
    rw [Nat.add_sub_cancel' lo] at slot
    have now := ready _ inPart
    rw [Ready, ← slot, side] at now
    obtain done | ⟨u, pub⟩ := h.ranDone .prod r hr'
    · rw [now] at done low
      simp only [phase] at done low
      omega
    · have same := h.publishing_ready pub
      rw [Ready, now] at same
      have eq := (phase_inj slot same.symm).2
      rw [eq, ← side] at pub
      exact h.callback_alone hp inPart u pub

/-- A pop receives what the push of its ticket wrote. -/
theorem callback_received (h : Inv s) (hp : s.pc t = .callback j)
    (hr : r ∈ (s.hist.run j.call.side (j.results s.q)).ran .cons) : r ∈ s.hist.ran .prod := by
  obtain ⟨ok, ready⟩ := h.callback_ok hp
  obtain ⟨side, hr'⟩ | hr' := (s.hist.mem_run _ _).mp hr
  · obtain ⟨i, hi, rfl⟩ := (j.mem_results s.q).mp hr'
    have now := ready i hi
    rw [Ready, ← side] at now
    obtain ⟨v, hv⟩ := h.wrote (j.index + i) (by rw [now]; simp [phase])
    have value := h.content _ hv now.le
    simp only at value
    simpa only [← side, h.slot_add ok hi, value, reduceCtorEq, if_false] using hv
  · exact h.received r hr'

end Callback

/-! ## Publications -/

section Publication

variable {t : Tid} {j : Job α} {i : Nat} {τ : Side} {k : Nat}

theorem publish_ok (h : Inv s) (hp : s.pc t = .publish j i) :
    JobOk s.q.capacity j ∧ i < j.num ∧ Ready s.q.capacity s.hist j.call.side (j.index + i) ∧
      ∃ v, (j.index + i, v) ∈ s.hist.ran j.call.side := by
  have loc := h.locals t
  rw [hp] at loc
  obtain ⟨ok, -, lt, ran⟩ := loc
  exact ⟨ok, lt, ran i le_rfl lt⟩

/-- Only the slot of the ticket gets another version. -/
theorem publish_ver (h : Inv s) (hp : s.pc t = .publish j i) (x : Nat) :
    (s.hist.publish (j.slot s.q + i)).ver x =
      s.hist.ver x + if x = (j.index + i) % s.q.capacity then 1 else 0 := by
  obtain ⟨ok, lt, -⟩ := h.publish_ok hp
  rw [← h.slot_add ok lt]
  by_cases e : x = j.slot s.q + i
  · simp [History.publish, e]
  · simp [History.publish, e]

theorem publish_grow (h : Inv s) (hp : s.pc t = .publish j i) (x : Nat) :
    s.hist.ver x ≤ (s.hist.publish (j.slot s.q + i)).ver x := by
  rw [h.publish_ver hp]
  exact Nat.le_add_right _ _

/-- The other tickets that are not published stay so. -/
theorem publish_low (h : Inv s) (hp : s.pc t = .publish j i)
    (low : s.hist.ver (k % s.q.capacity) ≤ phase s.q.capacity τ k)
    (ne : ¬(τ = j.call.side ∧ k = j.index + i)) :
    (s.hist.publish (j.slot s.q + i)).ver (k % s.q.capacity) ≤ phase s.q.capacity τ k := by
  obtain ⟨-, -, ready, -⟩ := h.publish_ok hp
  rw [h.publish_ver hp]
  split_ifs with e
  · rw [e, ready] at low ⊢
    exact lt_of_le_of_ne low fun eq => ne ((phase_inj e.symm eq).imp Eq.symm Eq.symm)
  · exact low

/-- The other tickets that are ready stay so. -/
theorem publish_ready (h : Inv s) (hp : s.pc t = .publish j i)
    (hr : Ready s.q.capacity s.hist τ k) (ne : ¬(τ = j.call.side ∧ k = j.index + i)) :
    Ready s.q.capacity (s.hist.publish (j.slot s.q + i)) τ k := by
  obtain ⟨-, -, ready, -⟩ := h.publish_ok hp
  rw [Ready, h.publish_ver hp, if_neg, hr, Nat.add_zero]
  intro e
  rw [Ready, e, ready] at hr
  exact ne ((phase_inj e.symm hr).imp Eq.symm Eq.symm)

/-- The element of a ticket that is published now has been written. -/
theorem publish_wrote (h : Inv s) (hp : s.pc t = .publish j i)
    (hk : phase s.q.capacity .prod k <
      (s.hist.publish (j.slot s.q + i)).ver (k % s.q.capacity)) :
    ∃ v, (k, v) ∈ s.hist.ran .prod := by
  obtain ⟨-, -, ready, v, hv⟩ := h.publish_ok hp
  by_cases done : phase s.q.capacity .prod k < s.hist.ver (k % s.q.capacity)
  · exact h.wrote k done
  · rw [h.publish_ver hp] at hk
    split_ifs at hk with e
    · rw [e, ready] at hk done
      have eq : phase s.q.capacity .prod k = phase s.q.capacity j.call.side (j.index + i) := by
        omega
      obtain ⟨side, rfl⟩ := phase_inj e eq
      rw [← side] at hv
      exact ⟨v, hv⟩
    · exact absurd hk done

end Publication

/-! ## The kinds of steps -/

/-- A step that claims nothing, runs no callback and publishes nothing. -/
theorem stay (h : Inv s) {s' : State Tid α} (sized : s'.q.Sized)
    (capacity : s'.q.capacity = s.q.capacity) (next : s'.q.nextIndex = s.q.nextIndex)
    (value : s'.q.value = s.q.value) (version : ∀ slot, s'.q.version slot = s.q.version slot)
    (hist : s'.hist = s.hist) (holds : ∀ u, (s'.pc u).Holds = (s.pc u).Holds)
    (publishing : ∀ u, (s'.pc u).Publishing = (s.pc u).Publishing)
    (locals : ∀ u, Local s.q.capacity s.q.nextIndex s.hist (s'.pc u)) : Inv s' := by
  refine ⟨sized, ?_, ?_, ?_, ?_, ?_, ?_, ?_, ?_, ?_, ?_, ?_, ?_, ?_⟩
  · simpa only [capacity, version, hist] using h.word
  · simpa only [holds, next] using h.claimed
  · simpa only [holds, hist, capacity] using h.low
  · simpa only [holds] using h.unique
  · simpa only [holds, next, hist, capacity] using h.cover
  · simpa only [next, hist, capacity] using h.fresh
  · simpa only [capacity, next, hist] using locals
  · simpa only [hist] using h.ranOnce
  · simpa only [hist, capacity, publishing] using h.ranDone
  · simpa only [hist, capacity] using h.wrote
  · simpa only [hist, capacity, value] using h.content
  · simpa only [hist] using h.received
  · simpa only [hist, next] using h.claims

variable [DecidableEq Tid]

/-- What the threads know after one of them has gone on. -/
theorem local_update {pc : Tid → Pc α} {t : Tid} {p : Pc α} {capacity : Nat} {next : Side → Nat}
    {hist : History α} (mine : Local capacity next hist p)
    (others : ∀ u, u ≠ t → Local capacity next hist (pc u)) :
    ∀ u, Local capacity next hist (Function.update pc t p u) :=
  (Function.forall_update_iff pc fun _ q => Local capacity next hist q).mpr ⟨mine, others⟩

/-- A thread that holds, or publishes, what it did before. -/
theorem same_update {β : Type*} (f : Pc α → β) {pc : Tid → Pc α} {t : Tid} {p : Pc α}
    (same : f p = f (pc t)) : ∀ u, f (Function.update pc t p u) = f (pc u) :=
  (Function.forall_update_iff pc fun u q => f q = f (pc u)).mpr ⟨same, fun _ _ => rfl⟩

/-- A step that only changes what a thread knows. -/
theorem goto (h : Inv s) {t : Tid} {p : Pc α} (holds : p.Holds = (s.pc t).Holds)
    (publishing : p.Publishing = (s.pc t).Publishing)
    (loc : Local s.q.capacity s.q.nextIndex s.hist p) : Inv (s.goto t p) :=
  h.stay h.sized rfl rfl rfl (fun _ => rfl) rfl (same_update Pc.Holds holds)
    (same_update Pc.Publishing publishing) (local_update loc fun u _ => h.locals u)

/-- A thread claims the next `n` tickets of a side. -/
theorem claim (h : Inv s) {t : Tid} {σ : Side} {n : Nat} {p : Pc α}
    (none : ∀ τ k, ¬(s.pc t).Holds τ k)
    (holds : ∀ τ k, p.Holds τ k ↔ τ = σ ∧ s.q.nextIndex σ ≤ k ∧ k < s.q.nextIndex σ + n)
    (publishing : ∀ τ k, ¬p.Publishing τ k)
    (loc : ∀ next : Side → Nat, next σ = s.q.nextIndex σ + n →
      Local s.q.capacity next s.hist p) :
    Inv
      { q := s.q.setNextIndex σ (s.q.nextIndex σ + n)
        pc := Function.update s.pc t p
        hist := s.hist.claim σ (s.q.nextIndex σ) n } := by
  have next := fun τ => s.q.nextIndex_advance σ τ n
  have holds' : ∀ u τ k, (Function.update s.pc t p u).Holds τ k ↔
      (s.pc u).Holds τ k ∨ u = t ∧ τ = σ ∧ s.q.nextIndex σ ≤ k ∧ k < s.q.nextIndex σ + n := by
    intro u τ k
    by_cases hu : u = t
    · subst hu; simp [none, holds]
    · simp [hu]
  have publishing' : ∀ u τ k, (Function.update s.pc t p u).Publishing τ k ↔
      (s.pc u).Publishing τ k := by
    intro u τ k
    by_cases hu : u = t
    · subst hu
      simp only [Function.update_self, publishing, false_iff]
      exact fun pub => none τ k pub.holds
    · simp [hu]
  refine ⟨h.sized.setNextIndex σ _, ?_, ?_, ?_, ?_, ?_, ?_, ?_, h.ranOnce, ?_, ?_, ?_, h.received,
    ?_⟩
  · simpa only [setNextIndex_capacity, setNextIndex_version, History.claim_ver] using h.word
  · intro u τ k hold
    rw [next]
    rcases (holds' u τ k).mp hold with old | ⟨-, rfl, -, hi⟩
    · exact (h.claimed u τ k old).trans_le (Nat.le_add_right _ _)
    · simpa using hi
  · intro u τ k hold
    simp only [setNextIndex_capacity]
    rcases (holds' u τ k).mp hold with old | ⟨-, rfl, lo, -⟩
    · exact h.low u τ k old
    · exact h.fresh τ k lo
  · intro u v τ k hu hv
    rcases (holds' u τ k).mp hu with oldu | ⟨rfl, rfl, lo, -⟩
    · rcases (holds' v τ k).mp hv with oldv | ⟨rfl, rfl, lo, -⟩
      · exact h.unique u v τ k oldu oldv
      · exact absurd (h.claimed u τ k oldu) (not_lt.mpr lo)
    · rcases (holds' v τ k).mp hv with oldv | ⟨rfl, -⟩
      · exact absurd (h.claimed v τ k oldv) (not_lt.mpr lo)
      · rfl
  · intro τ k hk low
    rw [next] at hk
    simp only [setNextIndex_capacity] at low
    by_cases old : k < s.q.nextIndex τ
    · obtain ⟨u, hu⟩ := h.cover τ k old low
      exact ⟨u, (holds' u τ k).mpr (Or.inl hu)⟩
    · have e : τ = σ := by by_contra ne; rw [if_neg ne] at hk; omega
      subst e
      rw [if_pos rfl] at hk
      exact ⟨t, (holds' t τ k).mpr (Or.inr ⟨rfl, rfl, not_lt.mp old, hk⟩)⟩
  · intro τ k hk
    rw [next] at hk
    simp only [setNextIndex_capacity]
    exact h.fresh τ k (by omega)
  · simp only [setNextIndex_capacity]
    refine local_update (loc _ (by rw [next, if_pos rfl])) fun u _ => ?_
    refine (h.locals u).mono (fun τ => ?_) (fun _ _ hr => hr) (fun _ _ _ hr => hr)
      fun _ _ _ hr => hr
    rw [next]; exact Nat.le_add_right _ _
  · intro τ r hr
    simp only [setNextIndex_capacity, publishing']
    exact h.ranDone τ r hr
  · simpa only [setNextIndex_capacity, History.claim_ver, History.claim_ran] using h.wrote
  · simpa only [setNextIndex_capacity, setNextIndex_value, History.claim_ver, History.claim_ran]
      using h.content
  · intro τ
    by_cases e : τ = σ
    · subst e
      simp only [History.claim, Function.update_self, next, if_true, List.pairwise_cons,
        List.mem_cons, forall_eq_or_imp]
      obtain ⟨apart, le, tile⟩ := h.claims τ
      refine ⟨⟨le, apart⟩, ⟨le_rfl, fun a ha => (le a ha).trans (Nat.le_add_right _ _)⟩,
        fun k hk => ?_⟩
      by_cases old : k < s.q.nextIndex τ
      · obtain ⟨a, ha, mem⟩ := tile k old
        exact ⟨a, Or.inr ha, mem⟩
      · exact ⟨_, Or.inl rfl, not_lt.mp old, hk⟩
    · simpa [History.claim, e, next] using h.claims τ

/-- The callback of a part runs. -/
theorem run (h : Inv s) {t : Tid} {j : Job α} {p : Pc α} (hp : s.pc t = .callback j)
    (holds : p.Holds = (s.pc t).Holds)
    (publishing : ∀ τ k, p.Publishing τ k ↔
      τ = j.call.side ∧ j.index ≤ k ∧ k < j.index + j.num)
    (loc : Local s.q.capacity s.q.nextIndex (s.hist.run j.call.side (j.results s.q)) p) :
    Inv
      { q := setValue s.q (j.written s.q)
        pc := Function.update s.pc t p
        hist := s.hist.run j.call.side (j.results s.q) } := by
  have notPublishing : ∀ τ k, ¬(s.pc t).Publishing τ k := by
    intro τ k
    rw [hp]
    exact id
  have holds' := same_update Pc.Holds holds
  have publishing' : ∀ u τ k, (s.pc u).Publishing τ k →
      (Function.update s.pc t p u).Publishing τ k := by
    intro u τ k pub
    have hu : u ≠ t := by rintro rfl; exact notPublishing τ k pub
    simpa [hu] using pub
  refine ⟨⟨h.sized.capacity_eq, h.sized.mask_eq⟩, h.word, ?_, ?_, ?_, ?_, ?_, ?_,
    h.callback_ranOnce hp, ?_, ?_, fun r hr low => h.callback_content hp hr low, ?_, ?_⟩
  · simpa only [holds', setValue_nextIndex] using h.claimed
  · simpa only [holds', History.run_ver, setValue_capacity] using h.low
  · simpa only [holds'] using h.unique
  · simpa only [holds', History.run_ver, setValue_nextIndex, setValue_capacity] using h.cover
  · simpa only [History.run_ver, setValue_nextIndex, setValue_capacity] using h.fresh
  · simp only [setValue_nextIndex, setValue_capacity]
    refine local_update loc fun u _ => ?_
    exact (h.locals u).mono (fun _ => le_rfl) (fun τ r hr => (s.hist.mem_run _ _).mpr (Or.inr hr))
      (fun _ _ _ hr => hr) fun _ _ _ hr => hr
  · intro τ r hr
    rcases (s.hist.mem_run _ _).mp hr with ⟨rfl, hr'⟩ | hr'
    · obtain ⟨i, hi, rfl⟩ := (j.mem_results s.q).mp hr'
      refine Or.inr ⟨t, ?_⟩
      simp only [Function.update_self, publishing]
      exact ⟨trivial, by simp, by simpa using hi⟩
    · exact (h.ranDone τ r hr').imp_right (Exists.imp fun u => publishing' u τ r.1)
  · intro k hk
    obtain ⟨v, hv⟩ := h.wrote k hk
    exact ⟨v, (s.hist.mem_run _ _).mpr (Or.inr hv)⟩
  · exact fun r hr => (s.hist.mem_run _ _).mpr (Or.inr (h.callback_received hp hr))
  · simpa only [History.run_claims, setValue_nextIndex] using h.claims

/-- The slot of a ticket is published. -/
theorem publish (h : Inv s) {t : Tid} {j : Job α} {i : Nat} {q : BoundedQueue α} {p : Pc α}
    (hp : s.pc t = .publish j i) (sized : q.Sized) (capacity : q.capacity = s.q.capacity)
    (next : q.nextIndex = s.q.nextIndex) (value : q.value = s.q.value)
    (version : ∀ slot, q.version slot =
      if slot = j.slot s.q + i then u16 (j.expected s.q + 1) else s.q.version slot)
    (holds : ∀ τ k, p.Holds τ k ↔
      (s.pc t).Holds τ k ∧ ¬(τ = j.call.side ∧ k = j.index + i))
    (publishing : ∀ τ k, p.Publishing τ k ↔
      (s.pc t).Publishing τ k ∧ ¬(τ = j.call.side ∧ k = j.index + i))
    (loc : Local s.q.capacity s.q.nextIndex (s.hist.publish (j.slot s.q + i)) p) :
    Inv
      { q := q
        pc := Function.update s.pc t p
        hist := s.hist.publish (j.slot s.q + i) } := by
  obtain ⟨ok, lt, ready, -⟩ := h.publish_ok hp
  have mine : (s.pc t).Holds j.call.side (j.index + i) := by
    rw [hp]; exact ⟨rfl, le_rfl, by omega⟩
  have holds' : ∀ u τ k, (Function.update s.pc t p u).Holds τ k ↔
      (s.pc u).Holds τ k ∧ ¬(τ = j.call.side ∧ k = j.index + i) := by
    intro u τ k
    by_cases hu : u = t
    · subst hu; simpa using holds τ k
    · rw [Function.update_of_ne hu]
      refine ⟨fun held => ⟨held, ?_⟩, And.left⟩
      rintro ⟨rfl, rfl⟩
      exact hu (h.unique u t _ _ held mine)
  refine ⟨sized, ?_, ?_, ?_, ?_, ?_, ?_, ?_, h.ranOnce, ?_, ?_, ?_, h.received, ?_⟩
  · intro x hx
    simp only [capacity] at hx
    rw [version, h.publish_ver hp, h.slot_add ok lt]
    split_ifs with e
    · rw [h.expected_eq ok lt, ← ready, e]
      unfold u16; omega
    · exact h.word x hx
  · intro u τ k hold
    rw [next]
    exact h.claimed u τ k ((holds' u τ k).mp hold).1
  · intro u τ k hold
    obtain ⟨hold, ne⟩ := (holds' u τ k).mp hold
    simp only [capacity]
    exact h.publish_low hp (h.low u τ k hold) ne
  · intro u v τ k hu hv
    exact h.unique u v τ k ((holds' u τ k).mp hu).1 ((holds' v τ k).mp hv).1
  · intro τ k hk low
    simp only [capacity, next] at hk low
    obtain ⟨u, hu⟩ := h.cover τ k hk ((h.publish_grow hp _).trans low)
    refine ⟨u, (holds' u τ k).mpr ⟨hu, ?_⟩⟩
    rintro ⟨rfl, rfl⟩
    rw [h.publish_ver hp, if_pos rfl, ready] at low
    omega
  · intro τ k hk
    simp only [capacity, next] at hk ⊢
    refine h.publish_low hp (h.fresh τ k hk) ?_
    rintro ⟨rfl, rfl⟩
    exact absurd (h.claimed t _ _ mine) (not_lt.mpr hk)
  · simp only [capacity, next]
    refine local_update loc fun u hu => ?_
    refine (h.locals u).mono (fun _ => le_rfl) (fun _ _ hr => hr) (fun τ k held hr => ?_)
      fun τ k hk hr => ?_
    · refine h.publish_ready hp hr ?_
      rintro ⟨rfl, rfl⟩
      exact hu (h.unique u t _ _ held mine)
    · refine h.publish_ready hp hr ?_
      rintro ⟨rfl, rfl⟩
      exact absurd (h.claimed t _ _ mine) (not_lt.mpr hk)
  · intro τ r hr
    simp only [capacity]
    obtain done | ⟨u, pub⟩ := h.ranDone τ r hr
    · exact Or.inl (done.trans_le (h.publish_grow hp _))
    · by_cases hu : u = t
      · subst hu
        by_cases this : τ = j.call.side ∧ r.1 = j.index + i
        · left
          rw [h.publish_ver hp, this.2, this.1, if_pos rfl, ready]
          exact Nat.lt_succ_self _
        · exact Or.inr ⟨u, by rw [Function.update_self, publishing]; exact ⟨pub, this⟩⟩
      · exact Or.inr ⟨u, by rw [Function.update_of_ne hu]; exact pub⟩
  · intro k hk
    simp only [capacity] at hk
    exact h.publish_wrote hp hk
  · intro r hr low
    simp only [capacity, value] at low ⊢
    exact h.content r hr ((h.publish_grow hp _).trans low)
  · intro τ
    rw [next]
    exact h.claims τ

end Inv

end Fuxi.Base.BoundedQueue
