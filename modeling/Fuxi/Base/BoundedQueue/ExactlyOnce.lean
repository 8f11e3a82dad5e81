import Fuxi.Base.BoundedQueue.Invariant

/-!
# Every value is delivered once, in ticket order

Every step keeps the invariant while the held tickets span fewer than `2^15` rounds, so
each ticket is claimed once, its callbacks run once, and its pop receives what its push
wrote.
-/

namespace Fuxi.Base.BoundedQueue

open Lib

variable {α Tid : Type*}

/-! ## Passing a slot -/

/-- The first number of a range is dropped. -/
theorem range_succ_iff {p : Prop} {n k m : Nat} :
    p ∧ n + 1 ≤ k ∧ k < m ↔ (p ∧ n ≤ k ∧ k < m) ∧ ¬(p ∧ k = n) := by
  constructor
  · rintro ⟨hp, lo, hi⟩
    exact ⟨⟨hp, by omega, hi⟩, fun e => by omega⟩
  · rintro ⟨⟨hp, lo, hi⟩, ne⟩
    have : k ≠ n := fun e => ne ⟨hp, e⟩
    exact ⟨hp, by omega, hi⟩

/-- Publishing one slot drops one ticket. -/
theorem holds_publish_succ (j : Job α) (i : Nat) (σ : Side) (k : Nat) :
    (Pc.publish j (i + 1)).Holds σ k ↔
      (Pc.publish j i).Holds σ k ∧ ¬(σ = j.call.side ∧ k = j.index + i) :=
  range_succ_iff

theorem publishing_publish_succ (j : Job α) (i : Nat) (σ : Side) (k : Nat) :
    (Pc.publish j (i + 1)).Publishing σ k ↔
      (Pc.publish j i).Publishing σ k ∧ ¬(σ = j.call.side ∧ k = j.index + i) :=
  range_succ_iff

/-- After the last slot of a part the tickets of the second part are left. -/
theorem holds_publish_last {j : Job α} {i : Nat} (last : i + 1 = j.num) :
    (Pc.publish j (i + 1)).Holds = j.after := by
  funext σ k
  simp only [Pc.Holds, Job.after, ← last, Nat.add_assoc]

theorem publishing_publish_last {j : Job α} {i : Nat} (last : i + 1 = j.num) :
    (Pc.publish j (i + 1)).Publishing = fun _ _ => False := by
  funext σ k
  simp only [Pc.Publishing, ← last, eq_iff_iff, iff_false]
  omega

namespace Inv

variable {s : State Tid α}

/-- A thread that finds the expected version in the slot `i` of its part is right. -/
theorem ready_of_held (h : Inv s) (spans : Spans s) {t : Tid} {j : Job α} {i : Nat}
    (ok : JobOk s.q.capacity j) (hi : i < j.num)
    (held : (s.pc t).Holds j.call.side (j.index + i))
    (eq : s.q.version (j.slot s.q + i) = j.expected s.q) :
    Ready s.q.capacity s.hist j.call.side (j.index + i) := by
  rw [h.expected_eq ok hi, h.slot_add ok hi,
    h.word _ (Nat.mod_lt _ h.sized.capacity_pos)] at eq
  have claimed := h.claimed t _ _ held
  exact h.ready_of_version spans (h.low t _ _ held) (by omega) eq

/-- The same for a call that has not claimed its tickets yet, if it works on the next
index of its side. -/
theorem ready_of_next (h : Inv s) (spans : Spans s) {j : Job α} {i : Nat}
    (ok : JobOk s.q.capacity j) (hi : i < j.num)
    (next : s.q.nextIndex j.call.side = j.index)
    (eq : s.q.version (j.slot s.q + i) = j.expected s.q) :
    Ready s.q.capacity s.hist j.call.side (j.index + i) := by
  rw [h.expected_eq ok hi, h.slot_add ok hi,
    h.word _ (Nat.mod_lt _ h.sized.capacity_pos)] at eq
  have fits := ok.fits
  exact h.ready_of_version spans (h.fresh _ _ (by omega)) (by omega) eq

/-- The tickets of a part that waits are claimed. -/
theorem wait_below (h : Inv s) {t : Tid} {j : Job α} {i : Nat} {w : Wait}
    (hp : s.pc t = .wait j i w) : j.index + j.num ≤ s.q.nextIndex j.call.side := by
  have loc := h.locals t
  rw [hp] at loc
  have lt := loc.2.1
  have last := h.claimed t j.call.side (j.index + j.num - 1) (by
    rw [hp]; exact ⟨rfl, by omega, by omega⟩)
  omega

/-- A futex word is stored whose version is that of the old word. -/
theorem rewriteWord (h : Inv s) {slot word : Nat} (same : u16 word = s.q.version slot) :
    Inv { s with q := setFutex s.q slot word } := by
  refine h.stay ⟨h.sized.capacity_eq, h.sized.mask_eq⟩ rfl ?_ rfl ?_ rfl (fun _ => rfl)
    (fun _ => rfl) h.locals
  · funext σ; cases σ <;> rfl
  · intro x
    by_cases e : x = slot
    · subst e; simpa [version, setFutex] using same
    · simp [version, setFutex, e]

variable [DecidableEq Tid]

/-- A thread that waits sees the expected version. -/
theorem seeReady (h : Inv s) (spans : Spans s) {t : Tid} {j : Job α} {i : Nat} {w : Wait}
    (hp : s.pc t = .wait j i w) (eq : u16 (s.q.futex (j.slot s.q + i)) = j.expected s.q) :
    Inv (s.goto t (j.ready i)) := by
  have loc := h.locals t
  rw [hp] at loc
  obtain ⟨ok, lt, before⟩ := loc
  have held : (s.pc t).Holds j.call.side (j.index + i) := by
    rw [hp]; exact ⟨rfl, by omega, by omega⟩
  refine h.goto ?_ ?_ ?_
  · rw [hp, Job.ready_holds]; rfl
  · rw [hp, Job.ready_publishing]; rfl
  · exact ok.ready_local (h.wait_below hp) lt before (h.ready_of_held spans ok lt held eq)

/-- A thread that keeps waiting, in whatever way. -/
theorem keepWaiting (h : Inv s) {t : Tid} {j : Job α} {i : Nat} {w : Wait}
    (hp : s.pc t = .wait j i w) (w' : Wait) : Inv (s.goto t (.wait j i w')) := by
  have loc := h.locals t
  rw [hp] at loc
  refine h.goto ?_ ?_ loc
  · rw [hp]; rfl
  · rw [hp]; rfl

theorem advanceWait (h : Inv s) (spans : Spans s) {t : Tid} {j : Job α} {i : Nat} {w : Wait}
    {s' : State Tid α} (hp : s.pc t = .wait j i w) (hs : s.advanceWait t j i w = some s') :
    Inv s' := by
  cases w with
  | asleep word => simp [State.advanceWait] at hs
  | load =>
    simp only [State.advanceWait] at hs
    split_ifs at hs with eq <;> cases hs
    · exact h.seeReady spans hp eq
    · exact h.keepWaiting hp _
    · exact h.keepWaiting hp _
  | mark word =>
    simp only [State.advanceWait] at hs
    split_ifs at hs with actual eq <;> cases hs
    · have marked : u16 (word + 65536) = s.q.version (j.slot s.q + i) := by
        rw [version, actual]; unfold u16; omega
      exact (h.keepWaiting hp (.sleep (word + 65536))).rewriteWord marked
    · exact h.seeReady spans hp eq
    · exact h.keepWaiting hp _
  | sleep word =>
    simp only [State.advanceWait] at hs
    split_ifs at hs <;> cases hs <;> exact h.keepWaiting hp _
  | reload =>
    simp only [State.advanceWait] at hs
    split_ifs at hs with eq <;> cases hs
    · exact h.seeReady spans hp eq
    · exact h.keepWaiting hp _
  | spin =>
    simp only [State.advanceWait] at hs
    split_ifs at hs with eq <;> cases hs
    · exact h.seeReady spans hp eq
    · exact h.keepWaiting hp _

/-- A thread that has published everything goes on to wake up waiters. -/
theorem wakeOn (h : Inv s) {t : Tid} {j : Job α} (after : (s.pc t).Holds = j.after)
    (quiet : (s.pc t).Publishing = fun _ _ => False) (ok : JobOk s.q.capacity j)
    (below : j.index + j.num ≤ s.q.nextIndex j.call.side) (i : Nat) :
    Inv (s.goto t (j.nextWake i)) :=
  h.goto (by rw [after, Job.nextWake_holds]) (by rw [quiet, Job.nextWake_publishing])
    (ok.nextWake_local below i)

/-- A slot is published, one way or the other. -/
theorem advancePublish (h : Inv s) {t : Tid} {j : Job α} {i : Nat} {s' : State Tid α}
    (hp : s.pc t = .publish j i) (hs : s.advance t = some s') : Inv s' := by
  have loc := h.locals t
  rw [hp] at loc
  obtain ⟨ok, below, lt, ran⟩ := loc
  have next : ∀ q' : BoundedQueue α, q'.nextPushIndex = s.q.nextPushIndex →
      q'.nextPopIndex = s.q.nextPopIndex → q'.nextIndex = s.q.nextIndex := by
    intro q' h1 h2
    funext σ; cases σ
    · exact h1
    · exact h2
  -- wherever the thread goes on, it holds what it would hold before the next slot
  have key : ∀ (q : BoundedQueue α) (p : Pc α), q.Sized → q.capacity = s.q.capacity →
      q.nextIndex = s.q.nextIndex → q.value = s.q.value →
      (∀ slot, q.version slot =
        if slot = j.slot s.q + i then u16 (j.expected s.q + 1) else s.q.version slot) →
      p.Holds = (Pc.publish j (i + 1)).Holds →
      p.Publishing = (Pc.publish j (i + 1)).Publishing →
      Local s.q.capacity s.q.nextIndex (s.hist.publish (j.slot s.q + i)) p →
      Inv ⟨q, Function.update s.pc t p, s.hist.publish (j.slot s.q + i)⟩ := by
    intro q p sized capacity next value version holds publishing loc
    refine h.publish hp sized capacity next value version (fun τ k => ?_) (fun τ k => ?_) loc
    · rw [holds, hp, holds_publish_succ]
    · rw [publishing, hp, publishing_publish_succ]
  have sized : ∀ f : Nat → Nat, ({ s.q with futex := f } : BoundedQueue α).Sized :=
    fun _ => ⟨h.sized.capacity_eq, h.sized.mask_eq⟩
  simp only [State.advance, hp] at hs
  by_cases single : j.call.batch = none ∧ j.call.wake
  · have last : i + 1 = j.num := by have := (ok.single single.1).1; omega
    rw [if_pos single] at hs
    cases hs
    refine key _ _ (sized _) rfl (next _ rfl rfl) rfl (fun x => version_exchangeVersion ..)
      ?_ ?_ ?_ <;> split_ifs
    · rw [holds_publish_last last, Job.finish_holds]
    · rw [holds_publish_last last]; rfl
    · rw [publishing_publish_last last, Job.finish_publishing]
    · rw [publishing_publish_last last]; rfl
    · exact ok.finish_local below
    · exact ⟨ok, below⟩
  · rw [if_neg single] at hs
    cases hs
    by_cases more : i + 1 < j.num
    · rw [if_pos more]
      refine key _ _ (sized _) rfl (next _ rfl rfl) rfl (fun x => version_setVersion ..) rfl rfl
        ⟨ok, below, more, fun i' lo hi => ?_⟩
      obtain ⟨now, v, hv⟩ := ran i' (by omega) hi
      have other : (j.index + i') % s.q.capacity ≠ j.slot s.q + i := by
        rw [← h.slot_add ok hi]; omega
      refine ⟨?_, v, hv⟩
      exact (Function.update_of_ne other _ _).trans now
    · have last : i + 1 = j.num := by omega
      rw [if_neg more]
      refine key _ _ (sized _) rfl (next _ rfl rfl) rfl (fun x => version_setVersion ..)
        ?_ ?_ ?_ <;> split_ifs
      · rw [holds_publish_last last]; rfl
      · rw [holds_publish_last last, Job.finish_holds]
      · rw [publishing_publish_last last]; rfl
      · rw [publishing_publish_last last, Job.finish_publishing]
      · exact ⟨ok, below⟩
      · exact ok.finish_local below

/-- A blocking call claims its tickets with one fetch-and-add. -/
theorem advanceFetchAdd (h : Inv s) {t : Tid} {c : Call α} {s' : State Tid α}
    (hp : s.pc t = .fetchAdd c) (hs : s.advance t = some s') : Inv s' := by
  have loc := h.locals t
  rw [hp] at loc
  obtain ⟨fits, blocking⟩ := loc
  obtain ⟨ok, call, index, total⟩ := c.job_ok h.sized fits (s.q.nextIndex c.side)
  simp only [State.advance, hp] at hs
  cases hs
  have none : ∀ τ k, ¬(s.pc t).Holds τ k := by rw [hp]; exact fun _ _ => id
  have rest : (c.job s.q (s.q.nextIndex c.side)).restClaimed =
      (c.job s.q (s.q.nextIndex c.side)).rest := by
    rw [Job.restClaimed, call, blocking]; rfl
  refine h.claim none (fun τ k => ?_) (fun τ k => ?_) fun next hnext => ?_
  · rw [Job.startWait_holds, Job.tickets, rest, call, index, Nat.add_assoc, total]
  · rw [Job.startWait_publishing]; exact id
  · unfold Job.startWait
    split_ifs with empty
    · refine ⟨ok, ?_, fun i hi => absurd hi (by omega)⟩
      rw [call, index, hnext]; omega
    · exact ⟨ok, Nat.pos_of_ne_zero empty, fun i hi => absurd hi (Nat.not_lt_zero i)⟩

/-- A non-blocking call looks at the slots of the next tickets. -/
theorem advanceCheck (h : Inv s) (spans : Spans s) {t : Tid} {j : Job α} {i : Nat}
    {s' : State Tid α} (hp : s.pc t = .tryCheck j i) (hs : s.advance t = some s') : Inv s' := by
  have loc := h.locals t
  rw [hp] at loc
  obtain ⟨ok, trying, lt, le, before⟩ := loc
  have idle : ∀ p : Pc α, p.Holds = (fun _ _ => False) → p.Publishing = (fun _ _ => False) →
      Local s.q.capacity s.q.nextIndex s.hist p → Inv (s.goto t p) := by
    intro p holds publishing loc
    exact h.goto (by rw [holds, hp]; rfl) (by rw [publishing, hp]; rfl) loc
  simp only [State.advance, hp] at hs
  by_cases seen : j.expected s.q = s.q.version (j.slot s.q + i)
  · have upTo : s.q.nextIndex j.call.side = j.index →
        ∀ i' < i + 1, Ready s.q.capacity s.hist j.call.side (j.index + i') := by
      intro next i' hi'
      rcases Nat.lt_succ_iff_lt_or_eq.mp hi' with old | rfl
      · exact before next i' old
      · exact h.ready_of_next spans ok lt next seen.symm
    rw [if_neg (not_not.mpr seen)] at hs
    split_ifs at hs with more <;> cases hs
    · exact idle _ rfl rfl ⟨ok, trying, more, le, upTo⟩
    · exact idle _ rfl rfl ⟨ok, trying, by omega, le, fun next i' hi' => upTo next i' (by omega)⟩
  · rw [if_pos seen] at hs
    split_ifs at hs with single none <;> cases hs
    · exact idle _ rfl rfl ⟨ok, trying, single, le⟩
    · exact idle _ rfl rfl trivial
    · -- the batch goes on with the slots that are ready
      have fits := ok.fits
      refine idle _ rfl rfl ⟨⟨?_, fun h => absurd rfl h, fun h => absurd h single⟩, trying,
        Nat.pos_of_ne_zero none, le, before⟩
      simp only; omega

/-- A single non-blocking call starts over at the next index. -/
theorem tryAgain (h : Inv s) {t : Tid} {j : Job α} (ok : JobOk s.q.capacity j)
    (trying : j.call.trying = true) (single : j.call.batch = none)
    (holds : (s.pc t).Holds = fun _ _ => False)
    (publishing : (s.pc t).Publishing = fun _ _ => False) :
    Inv (s.goto t (.tryCheck { j with index := s.q.nextIndex j.call.side } 0)) := by
  have one := (ok.single single).1
  refine h.goto (by rw [holds]; rfl) (by rw [publishing]; rfl)
    ⟨ok.reindex h.sized.capacity_pos single _, trying, ?_, le_rfl,
      fun _ i hi => absurd hi (Nat.not_lt_zero i)⟩
  simp only [one, Nat.one_pos]

/-- A non-blocking call claims its tickets if nobody else has. -/
theorem advanceClaim (h : Inv s) {t : Tid} {j : Job α} {s' : State Tid α}
    (hp : s.pc t = .tryClaim j) (hs : s.advance t = some s') : Inv s' := by
  have loc := h.locals t
  rw [hp] at loc
  obtain ⟨ok, trying, pos, le, ready⟩ := loc
  have holds : (s.pc t).Holds = fun _ _ => False := by rw [hp]; rfl
  have publishing : (s.pc t).Publishing = fun _ _ => False := by rw [hp]; rfl
  simp only [State.advance, hp] at hs
  split_ifs at hs with next single <;> cases hs
  · have rest : j.restClaimed = 0 := by rw [Job.restClaimed, if_pos trying]
    rw [← next]
    refine h.claim (by rw [holds]; exact fun _ _ => id) (fun τ k => ?_) (fun τ k => id)
      fun next' hnext' => ⟨ok, ?_, ready next⟩
    · simp only [Pc.Holds, rest, next, Nat.add_zero]
    · rw [hnext', next]
  · exact h.tryAgain ok trying single holds publishing
  · exact h.goto (by rw [holds]; rfl) (by rw [publishing]; rfl) trivial

theorem advanceCallback (h : Inv s) {t : Tid} {j : Job α} {s' : State Tid α}
    (hp : s.pc t = .callback j) (hs : s.advance t = some s') : Inv s' := by
  have loc := h.locals t
  rw [hp] at loc
  obtain ⟨ok, below, ready⟩ := loc
  simp only [State.advance, hp] at hs
  cases hs
  by_cases empty : j.num = 0
  · rw [if_pos empty]
    refine h.run hp ?_ (fun τ k => ?_) (ok.finish_local below)
    · rw [Job.finish_holds, hp]
      funext σ k
      simp only [Job.after, Pc.Holds, empty, Nat.add_zero]
    · rw [Job.finish_publishing, empty]
      simp only [false_iff]; omega
  · rw [if_neg empty]
    refine h.run hp ?_ (fun τ k => ?_)
      ⟨ok, below, Nat.pos_of_ne_zero empty, fun i _ hi => ⟨ready i hi, ?_⟩⟩
    · rw [hp]; rfl
    · simp only [Pc.Publishing, Nat.add_zero]
    · obtain ⟨v, hv⟩ : ∃ v, (j.index + i, v) ∈ j.results s.q :=
        ⟨_, List.mem_map.mpr ⟨i, List.mem_range.mpr hi, rfl⟩⟩
      exact ⟨v, (s.hist.mem_run _ _).mpr (Or.inl ⟨rfl, hv⟩)⟩

/-- What a thread does after it has published its part: it looks for waiters. -/
theorem advanceWake (h : Inv s) {t : Tid} {j : Job α} {i : Nat} {s' : State Tid α}
    (hp : s.pc t = .wakeLoad j i ∨ (∃ word, s.pc t = .wakeClear j i word) ∨ s.pc t = .wakeAll j i)
    (hs : s.advance t = some s') : Inv s' := by
  have loc := h.locals t
  have known : (s.pc t).Holds = j.after ∧ ((s.pc t).Publishing = fun _ _ => False) ∧
      JobOk s.q.capacity j ∧ j.index + j.num ≤ s.q.nextIndex j.call.side := by
    rcases hp with hp | ⟨word, hp⟩ | hp <;> rw [hp] at loc ⊢ <;> exact ⟨rfl, rfl, loc⟩
  obtain ⟨after, quiet, ok, below⟩ := known
  have next := h.wakeOn after quiet ok below i
  rcases hp with hp | ⟨word, hp⟩ | hp <;> simp only [State.advance, hp] at hs
  · split_ifs at hs <;> cases hs
    · exact next
    · exact next
    · exact h.goto (by rw [after]; rfl) (by rw [quiet]; rfl) ⟨ok, below⟩
  · split_ifs at hs with same <;> cases hs
    · have cleared : Inv (s.goto t (.wakeAll j i)) :=
        h.goto (by rw [after]; rfl) (by rw [quiet]; rfl) ⟨ok, below⟩
      refine cleared.rewriteWord ?_
      simp only [State.goto, version, same]
      unfold u16; omega
    · exact next
  · cases hs
    refine h.stay h.sized rfl rfl rfl (fun _ => rfl) rfl (fun u => ?_) (fun u => ?_)
      (fun u => ?_) <;> dsimp only <;> by_cases hu : u = t
    · subst hu; rw [Function.update_self, after, Job.nextWake_holds]
    · rw [Function.update_of_ne hu, awaken_holds]
    · subst hu; rw [Function.update_self, quiet, Job.nextWake_publishing]
    · rw [Function.update_of_ne hu, awaken_publishing]
    · subst hu; rw [Function.update_self]; exact ok.nextWake_local below i
    · rw [Function.update_of_ne hu, awaken_local]; exact h.locals u

/-- Every step of a thread keeps the invariant. -/
theorem advance (h : Inv s) (spans : Spans s) {t : Tid} {s' : State Tid α}
    (hs : s.advance t = some s') : Inv s' := by
  cases hp : s.pc t with
  | idle => simp [State.advance, hp] at hs
  | returned c moved => simp [State.advance, hp] at hs
  | fetchAdd c => exact h.advanceFetchAdd hp hs
  | wait j i w =>
    simp only [State.advance, hp] at hs
    exact h.advanceWait spans hp hs
  | loadIndex c =>
    have loc := h.locals t
    rw [hp] at loc
    obtain ⟨ok, call, index, -⟩ := c.job_ok h.sized loc.1 (s.q.nextIndex c.side)
    simp only [State.advance, hp] at hs
    cases hs
    refine h.goto (by rw [Job.startTry_holds, hp]; rfl)
      (by rw [Job.startTry_publishing, hp]; rfl) ?_
    unfold Job.startTry
    split_ifs with empty
    · trivial
    · refine ⟨ok, by rw [call, loc.2], Nat.pos_of_ne_zero empty, ?_,
        fun _ i hi => absurd hi (Nat.not_lt_zero i)⟩
      rw [call, index]
  | tryCheck j i => exact h.advanceCheck spans hp hs
  | tryReload j =>
    have loc := h.locals t
    rw [hp] at loc
    obtain ⟨ok, trying, single, le⟩ := loc
    simp only [State.advance, hp] at hs
    split_ifs at hs <;> cases hs
    · exact h.goto (by rw [hp]; rfl) (by rw [hp]; rfl) trivial
    · exact h.tryAgain ok trying single (by rw [hp]; rfl) (by rw [hp]; rfl)
  | tryClaim j => exact h.advanceClaim hp hs
  | callback j => exact h.advanceCallback hp hs
  | publish j i => exact h.advancePublish hp hs
  | wakeLoad j i => exact h.advanceWake (.inl hp) hs
  | wakeClear j i word => exact h.advanceWake (.inr (.inl ⟨word, hp⟩)) hs
  | wakeAll j i => exact h.advanceWake (.inr (.inr hp)) hs

theorem step (h : Inv s) (spans : Spans s) {m : Tid × Move α}
    (fits : ∀ c, m.2 = .call c → c.num ≤ s.q.capacity) {s' : State Tid α}
    (hs : s.step m = some s') : Inv s' := by
  obtain ⟨t, c | _ | _ | _⟩ := m
  · have enter : s' = s.goto t (if c.trying then .loadIndex c else .fetchAdd c) ∧
        (s.pc t).Holds = (fun _ _ => False) ∧ (s.pc t).Publishing = fun _ _ => False := by
      simp only [State.step, State.enter] at hs
      cases hp : s.pc t <;> rw [hp] at hs <;> cases hs <;> exact ⟨rfl, rfl, rfl⟩
    obtain ⟨rfl, holds, publishing⟩ := enter
    refine h.goto ?_ ?_ ?_
    · rw [holds]; split_ifs <;> rfl
    · rw [publishing]; split_ifs <;> rfl
    · split_ifs with trying
      · exact ⟨fits c rfl, trying⟩
      · exact ⟨fits c rfl, Bool.not_eq_true _ ▸ trying⟩
  · exact h.advance spans hs
  · cases hp : s.pc t <;> simp only [State.step, hp] at hs <;> try cases hs
    case tryClaim j =>
      have loc := h.locals t
      rw [hp] at loc
      split_ifs at hs with single
      cases hs
      exact h.tryAgain loc.1 loc.2.1 single (by rw [hp]; rfl) (by rw [hp]; rfl)
  · cases hp : s.pc t <;> simp only [State.step, hp] at hs <;> try cases hs
    case wait j i w =>
      cases w <;> simp only at hs <;> cases hs
      exact h.keepWaiting hp .reload

end Inv

theorem inv_fresh (Tid : Type*) (zero : α) (minCapacity : Nat) :
    Inv (fresh Tid zero minCapacity) where
  sized := reserveAndClear_sized zero minCapacity
  word := fun _ _ => rfl
  claimed := fun _ _ _ held => held.elim
  low := fun _ _ _ held => held.elim
  unique := fun _ _ _ _ held => held.elim
  cover := fun σ k hk => absurd hk (by cases σ <;> exact Nat.not_lt_zero k)
  fresh := fun _ _ _ => Nat.zero_le _
  locals := fun _ => trivial
  ranOnce := fun _ => List.nodup_nil
  ranDone := fun _ _ hr => absurd hr List.not_mem_nil
  wrote := fun _ hk => absurd hk (Nat.not_lt_zero _)
  content := fun _ hr => absurd hr List.not_mem_nil
  received := fun _ hr => absurd hr List.not_mem_nil
  claims := fun σ => ⟨List.Pairwise.nil, fun _ ha => absurd ha List.not_mem_nil,
    fun k hk => absurd hk (by cases σ <;> exact Nat.not_lt_zero k)⟩

/-! ## What the queue promises -/

/-- A callback is running on this slot, or about to, and the slot is not published yet. -/
def Occupies (s : State Tid α) (t : Tid) (slot : Nat) : Prop :=
  (∃ j, s.pc t = .callback j ∧ ∃ i < j.num, slot = j.slot s.q + i) ∨
    ∃ j i, s.pc t = .publish j i ∧ ∃ i', i ≤ i' ∧ i' < j.num ∧ slot = j.slot s.q + i'

/-- What the queue promises in every state. The pair `(a, n)` in `claims` is a claim of
the tickets `[a, a + n)`, and `(k, v)` in `ran` is a callback for ticket `k` that wrote
or received `v`. -/
structure Exact (s : State Tid α) : Prop where
  claimedOnce : ∀ σ, (s.hist.claims σ).Pairwise fun a b => b.1 + b.2 ≤ a.1
  ranClaimed : ∀ σ, ∀ r ∈ s.hist.ran σ, ∃ a ∈ s.hist.claims σ, a.1 ≤ r.1 ∧ r.1 < a.1 + a.2
  ranOnce : ∀ σ, ((s.hist.ran σ).map Prod.fst).Nodup
  received : ∀ r ∈ s.hist.ran .cons, r ∈ s.hist.ran .prod
  apart : ∀ t u slot, Occupies s t slot → Occupies s u slot → t = u

namespace Inv

variable {s : State Tid α}

/-- Whoever works on a slot holds the ticket that the slot waits for. -/
theorem occupies_ready (h : Inv s) {t : Tid} {slot : Nat} (occ : Occupies s t slot) :
    ∃ σ k, (s.pc t).Holds σ k ∧ slot = k % s.q.capacity ∧ Ready s.q.capacity s.hist σ k := by
  have loc := h.locals t
  obtain ⟨j, hp, i, hi, rfl⟩ | ⟨j, i, hp, i', lo, hi, rfl⟩ := occ
  · rw [hp] at loc
    obtain ⟨ok, -, ready⟩ := loc
    refine ⟨j.call.side, j.index + i, ?_, h.slot_add ok hi, ready i hi⟩
    rw [hp]; exact ⟨rfl, by omega, by omega⟩
  · rw [hp] at loc
    obtain ⟨ok, -, -, ready⟩ := loc
    refine ⟨j.call.side, j.index + i', ?_, h.slot_add ok hi, (ready i' lo hi).1⟩
    rw [hp]; exact ⟨rfl, by omega, by omega⟩

/-- A callback runs for claimed tickets only. -/
theorem ran_lt (h : Inv s) {σ : Side} {r : Nat × α} (hr : r ∈ s.hist.ran σ) :
    r.1 < s.q.nextIndex σ := by
  obtain done | ⟨t, pub⟩ := h.ranDone σ r hr
  · by_contra ge
    exact absurd done (not_lt.mpr (h.fresh σ r.1 (not_lt.mp ge)))
  · exact h.claimed t σ r.1 pub.holds

/-- The invariant gives what the queue promises. -/
theorem exact (h : Inv s) : Exact s where
  claimedOnce σ := (h.claims σ).1
  ranClaimed σ r hr := (h.claims σ).2.2 r.1 (h.ran_lt hr)
  ranOnce := h.ranOnce
  received := h.received
  apart t u slot ht hu := by
    obtain ⟨σ, k, holdk, rfl, readyk⟩ := h.occupies_ready ht
    obtain ⟨τ, l, holdl, slot, readyl⟩ := h.occupies_ready hu
    have same : phase s.q.capacity σ k = phase s.q.capacity τ l := by
      rw [← readyk, ← readyl, slot]
    obtain ⟨rfl, rfl⟩ := phase_inj slot same
    exact h.unique t u _ _ holdk holdl

end Inv

/-! ## Runs -/

/-- No call asks for more tickets than the ring has slots, and the tickets that are
claimed and not yet completed span fewer than `2^15` rounds. -/
def disciplined (s : State Tid α) (m : Tid × Move α) (_ : State Tid α) : Prop :=
  (∀ c, m.2 = .call c → c.num ≤ s.q.capacity) ∧ Spans s

variable [DecidableEq Tid]

theorem reach_inv (zero : α) (minCapacity : Nat) {s : State Tid α}
    (h : (machine Tid zero minCapacity).Reach disciplined s) : Inv s := by
  refine h.inv ?_ ?_
  · rintro s rfl
    exact inv_fresh ..
  · rintro s m s' inv hs ⟨fits, spans⟩
    exact inv.step spans fits hs

/-- In every interleaving the queue delivers every value once, in ticket order. -/
theorem delivers_of_reach (zero : α) (minCapacity : Nat) {s : State Tid α}
    (h : (machine Tid zero minCapacity).Reach disciplined s) : Exact s :=
  (reach_inv zero minCapacity h).exact

/-- Tickets of at most `2^15 - 1` rounds are claimed so far. -/
def short (s : State Tid α) (m : Tid × Move α) (_ : State Tid α) : Prop :=
  (∀ c, m.2 = .call c → c.num ≤ s.q.capacity) ∧
    ∀ σ, s.q.nextIndex σ ≤ 32767 * s.q.capacity

omit [DecidableEq Tid] in
/-- Few claimed tickets lie in few rounds. -/
theorem Inv.spans_of_short {s : State Tid α} (h : Inv s)
    (few : ∀ σ, s.q.nextIndex σ ≤ 32767 * s.q.capacity) : Spans s := by
  intro t u σ j k hj _
  have below : j < s.q.capacity * 32767 := by
    have := h.claimed t σ j hj
    have := few σ
    omega
  have := Nat.div_lt_of_lt_mul below
  exact (show j / s.q.capacity + 1 < 32768 by omega).trans_le (Nat.le_add_left _ _)

/-- Short runs need no further discipline. -/
theorem reach_of_short (zero : α) (minCapacity : Nat) {s : State Tid α}
    (h : (machine Tid zero minCapacity).Reach short s) :
    (machine Tid zero minCapacity).Reach disciplined s := by
  induction h with
  | start h => exact .start h
  | step _ move side ih =>
    exact .step ih move ⟨side.1, (reach_inv zero minCapacity ih).spans_of_short side.2⟩

theorem along_of_short (zero : α) (minCapacity : Nat) {s : State Tid α} {is : List (Tid × Move α)}
    (h : Inv s) (few : (machine Tid zero minCapacity).Along short s is) :
    (machine Tid zero minCapacity).Along disciplined s is :=
  few.imp h fun s i s' inv hs side =>
    have spans := inv.spans_of_short side.2
    ⟨inv.step spans side.1 hs, side.1, spans⟩

instance (s s' : State Tid α) (m : Tid × Move α) : Decidable (short s m s') :=
  decidable_of_iff
    ((match m.2 with | .call c => decide (c.num ≤ s.q.capacity) | _ => true) = true ∧
      s.q.nextIndex .prod ≤ 32767 * s.q.capacity ∧ s.q.nextIndex .cons ≤ 32767 * s.q.capacity) (by
    refine and_congr ?_ ⟨fun h σ => by cases σ; exacts [h.1, h.2], fun h => ⟨h .prod, h .cons⟩⟩
    cases m.2 <;> simp)

/-- On a ring of two slots, a batch push is split at the end of the ring and sleeps on the
slot of the first element until a pop takes it, and a `try_pop_n` takes the batch. -/
def splitBatch : List (Nat × Move Nat) :=
  (0, .call ⟨.prod, none, false, true, true, fun _ => 5⟩) :: List.replicate 4 (0, .step) ++
    (1, .call ⟨.prod, some 2, false, true, true, fun i => 7 + i⟩) :: List.replicate 8 (1, .step) ++
    (2, .call ⟨.cons, none, false, true, true, fun _ => 0⟩) :: List.replicate 5 (2, .step) ++
    List.replicate 4 (1, .step) ++
    (2, .call ⟨.cons, some 2, true, false, false, fun _ => 0⟩) :: List.replicate 9 (2, .step)

/-- The pops receive the three values in ticket order. -/
theorem delivers_of_reach_splitBatch :
    ∃ s, (machine Nat 0 2).run (fresh Nat 0 2) splitBatch = some s ∧
      s.hist.claims .prod = [(1, 2), (0, 1)] ∧ s.hist.ran .cons = [(2, 8), (1, 7), (0, 5)] ∧
        Exact s := by
  have along : (machine Nat 0 2).Along short (fresh Nat 0 2) splitBatch := by
    decide +kernel
  have seen : (((machine Nat 0 2).run (fresh Nat 0 2) splitBatch).map fun s =>
      (s.hist.claims .prod, s.hist.ran .cons)) =
        some ([(1, 2), (0, 1)], [(2, 8), (1, 7), (0, 5)]) := by decide +kernel
  obtain ⟨s, run, reach, seen⟩ := Machine.Reach.of_along_seen (.start rfl) along seen
  simp only [Prod.mk.injEq] at seen
  exact ⟨s, run, seen.1, seen.2, delivers_of_reach 0 2 (reach_of_short 0 2 reach)⟩

end Fuxi.Base.BoundedQueue
