import Fuxi.Base.BoundedQueue.Fifo
import Fuxi.Base.BoundedQueue.TimedPop
import Fuxi.Lib.FairQueue

/-!
# The concurrent queue refines a bounded queue with two lines

A call lines up when it claims its tickets. Its callback runs when its elements are in the queue,
or when there are elements for it, and receives the elements in the order of their arrival. With
these moments, every interleaving of all eight operations is a run of a bounded queue that serves
its callers in the order of arrival. The elements that the queue has let in need not be written
yet, and one that it has given to a taker may lie in its slot for a while.
-/

namespace Fuxi.Base.BoundedQueue

open Lib

variable {α Tid : Type*}

/-- What the call writes. -/
def Call.items (c : Call α) : List α := (List.range c.num).map c.item

def Call.op (c : Call α) : QueueOp α :=
  match c.side with
  | .prod => .put c.items
  | .cons => .take c.num

/-- Where the call of a thread is. -/
def Pc.stage : Pc α → FairStage α
  | .idle => .idle
  | .fetchAdd c | .loadIndex c => .running c.op c.trying 0 0
  | .tryCheck j _ | .tryReload j | .tryClaim j =>
    .running j.call.op j.call.trying j.moved j.moved
  | .wait j _ _ | .callback j =>
    .running j.call.op j.call.trying (j.moved + (j.num + j.restClaimed)) j.moved
  | .publish j _ | .wakeLoad j _ | .wakeClear j _ _ | .wakeAll j _ =>
    .running j.call.op j.call.trying (j.moved + (j.num + j.restClaimed)) (j.moved + j.num)
  | .returned _ moved => .answered moved

/-- A call that returns with this step has its answer. -/
def State.answer [DecidableEq Tid] (s : State Tid α) (t : Tid) : Option (Tid × FairMove α) :=
  (s.advance t).bind fun s' =>
    match s'.pc t with
    | .returned _ _ => some (t, .answer)
    | _ => none

/-- What the callback tells the caller. -/
def Job.told (j : Job α) (q : BoundedQueue α) : FairMove α :=
  match j.call.side with
  | .prod => .entered j.num
  | .cons => .received ((j.results q).map Prod.snd)

/-- What a step is for the queue with two lines. -/
def State.label [DecidableEq Tid] (s : State Tid α) :
    Tid × Move α → Option (Tid × FairMove α)
  | (t, .call c) => some (t, .ask c.op c.trying)
  | (_, .weakFail) | (_, .spurious) => none
  | (t, .step) =>
    match s.pc t with
    | .fetchAdd c => some (t, .arrive c.num)
    | .tryClaim j =>
      if s.q.nextIndex j.call.side = j.index then some (t, .arrive j.num) else s.answer t
    | .callback j => if j.num = 0 then s.answer t else some (t, j.told s.q)
    | _ => s.answer t

/-! ## Tickets whose callbacks have not run -/

/-- The claimed tickets of a job without the first `skip` ones. -/
def Job.unrun (j : Job α) (skip : Nat) : Option (Job α) :=
  if j.num + j.restClaimed ≤ skip then none
  else some ⟨j.call, j.index + skip, j.num + j.restClaimed - skip, 0, j.moved + skip⟩

def Pc.unrun : Pc α → Option (Job α)
  | .wait j _ _ | .callback j => j.unrun 0
  | .publish j _ | .wakeLoad j _ | .wakeClear j _ _ | .wakeAll j _ => j.unrun j.num
  | .idle | .fetchAdd _ | .loadIndex _ | .tryCheck _ _ | .tryReload _ | .tryClaim _
  | .returned _ _ => none

/-- The bounds of these tickets. -/
def Pc.span (p : Pc α) (σ : Side) : Nat × Nat :=
  match p.unrun with
  | some j => if j.call.side = σ then (j.index, j.index + j.num) else (0, 0)
  | none => (0, 0)

/-- The parts of a call are at most what it asks for, and all of that if it blocks. -/
def Job.Within (j : Job α) : Prop :=
  if j.call.trying then j.moved + j.num + j.rest ≤ j.call.num
  else j.moved + j.num + j.rest = j.call.num

def Pc.Within : Pc α → Prop
  | .wait j _ _ => j.Within ∧ j.call.trying = false
  | .callback j | .publish j _ | .wakeLoad j _ | .wakeClear j _ _ | .wakeAll j _
  | .tryCheck j _ | .tryReload j | .tryClaim j => j.Within
  | .idle | .fetchAdd _ | .loadIndex _ | .returned _ _ => True

@[simp] theorem Call.items_length (c : Call α) : c.items.length = c.num := by simp [items]

@[simp] theorem Call.op_size (c : Call α) : c.op.size = c.num := by
  cases h : c.side <;> simp [op, h, QueueOp.size]

theorem Call.job_moved (c : Call α) (q : BoundedQueue α) (index : Nat) :
    (c.job q index).moved = 0 := by
  unfold job
  simp only
  split_ifs <;> rfl

theorem getElem?_append_some {β : Type*} {l more : List β} {i : Nat} {b : β}
    (hb : l[i]? = some b) : (l ++ more)[i]? = some b := by
  obtain ⟨inside, rfl⟩ := List.getElem?_eq_some_iff.mp hb
  rw [List.getElem?_append_left inside, List.getElem?_eq_getElem inside]

section Spans

variable {p : Pc α} {j : Job α}

theorem Pc.span_of_none (none : p.unrun = none) (σ : Side) : p.span σ = (0, 0) := by
  rw [span, none]

theorem Pc.span_of_some (unrun : p.unrun = some j) (σ : Side) :
    p.span σ = if j.call.side = σ then (j.index, j.index + j.num) else (0, 0) := by
  rw [span, unrun]

/-- The bounds of a thread that has just claimed its tickets. -/
theorem Pc.span_claimed {c : Call α} {index n moved : Nat}
    (unrun : p.unrun = if n = 0 then none else some ⟨c, index, n, 0, moved⟩) (σ : Side) :
    FairQueue.SameSpan (if c.side = σ then (index, index + n) else (0, 0)) (p.span σ) := by
  by_cases zero : n = 0
  · rw [if_pos zero] at unrun
    rw [span_of_none unrun]
    refine Or.inr ⟨?_, le_rfl⟩
    split_ifs
    · show index + n ≤ index
      omega
    · exact le_rfl
  · rw [if_neg zero] at unrun
    rw [span_of_some unrun]
    exact Or.inl rfl

/-- The bounds of a thread whose callback has just run. -/
theorem Job.span_told (j : Job α) (σ : Side) :
    FairQueue.SameSpan
      (if j.call.side = σ then (j.index + j.num, j.index + (j.num + j.restClaimed)) else (0, 0))
      ((Pc.publish j 0).span σ) := by
  by_cases rest : j.num + j.restClaimed ≤ j.num
  · have none : (Pc.publish j 0).unrun = none := if_pos rest
    rw [Pc.span_of_none none]
    refine Or.inr ⟨?_, le_rfl⟩
    split_ifs
    · show j.index + (j.num + j.restClaimed) ≤ j.index + j.num
      omega
    · exact le_rfl
  · have sum : j.index + j.num + (j.num + j.restClaimed - j.num) =
        j.index + (j.num + j.restClaimed) := by omega
    have some : (Pc.publish j 0).unrun = some _ := if_neg rest
    rw [Pc.span_of_some some, sum]
    exact Or.inl rfl

theorem spans_update [DecidableEq Tid] (pc : Tid → Pc α) (t : Tid) {σ : Side} {r : Nat × Nat}
    (own : FairQueue.SameSpan r (p.span σ)) (u : Tid) :
    FairQueue.SameSpan (Function.update (fun u => (pc u).span σ) t r u)
      ((Function.update pc t p u).span σ) := by
  by_cases e : u = t
  · subst e
    simpa only [Function.update_self] using own
  · simp only [Function.update_of_ne e]
    exact Or.inl rfl

end Spans

/-- A thread goes on with its call as the lines see it, or it returns when it has been told about
all its elements. -/
inductive Goes (p p' : Pc α) : Prop
  | on (stage : p'.stage = p.stage) (unrun : p'.unrun = p.unrun) (within : p'.Within)
  | back {c : Call α} {moved : Nat} {op : QueueOp α} {trying : Bool}
    (returns : p' = .returned c moved) (stage : p.stage = .running op trying moved moved)
    (unrun : p.unrun = none) (all : trying = true ∨ moved = op.size)

namespace Job

variable {j : Job α} {p : Pc α}

theorem restClaimed_of_trying (h : j.call.trying = true) : j.restClaimed = 0 := if_pos h

theorem restClaimed_of_blocking (h : j.call.trying = false) : j.restClaimed = j.rest := by
  rw [restClaimed, h]
  rfl

theorem Within.second (h : j.Within) : j.second.Within := by
  unfold Within at h ⊢
  exact h

/-- A call that blocks is done after its last part. -/
theorem Within.last (h : j.Within) (none : j.rest = 0) :
    j.call.trying = true ∨ j.moved + j.num = j.call.num := by
  rw [Within, none] at h
  split_ifs at h with trying
  · exact Or.inl trying
  · exact Or.inr h

theorem unrun_of_le {skip : Nat} (all : j.num + j.restClaimed ≤ skip) : j.unrun skip = none :=
  if_pos all

/-- The second part of a call that blocks is claimed with the first one. -/
theorem second_unrun (blocking : j.call.trying = false) : j.second.unrun 0 = j.unrun j.num := by
  have rest := restClaimed_of_blocking blocking
  have none : j.second.restClaimed = 0 := restClaimed_of_blocking blocking
  have num : j.second.num = j.rest := rfl
  by_cases last : j.rest = 0
  · rw [unrun_of_le (by omega), unrun_of_le (by omega)]
  · rw [unrun, if_neg (by omega), unrun, if_neg (by omega), none, num, rest,
      Nat.add_sub_cancel_left]
    rfl

theorem finish_goes (within : j.Within)
    (stage : p.stage =
      .running j.call.op j.call.trying (j.moved + (j.num + j.restClaimed)) (j.moved + j.num))
    (unrun : p.unrun = j.unrun j.num) : Goes p j.finish := by
  unfold finish
  split_ifs with last trying
  · have none : j.restClaimed = 0 := by
      rw [restClaimed, last]
      split_ifs <;> rfl
    rw [none] at stage
    refine .back rfl stage ?_ ?_
    · rw [unrun, unrun_of_le (by omega)]
    · rw [Call.op_size]
      exact within.last last
  · have none := restClaimed_of_trying trying
    rw [none] at stage
    rw [startTry, if_neg (show ¬j.second.num = 0 from last)]
    refine .on stage.symm ?_ within.second
    rw [unrun, unrun_of_le (by omega)]
    rfl
  · have blocking : j.call.trying = false := by simpa using trying
    have rest := restClaimed_of_blocking blocking
    have none : j.second.restClaimed = 0 := restClaimed_of_blocking blocking
    rw [startWait, if_neg (show ¬j.second.num = 0 from last)]
    refine .on ?_ ?_ ⟨within.second, blocking⟩
    · have sum : j.second.moved + (j.second.num + j.second.restClaimed) =
          j.moved + (j.num + j.restClaimed) := by
        rw [rest, none]
        exact Nat.add_assoc ..
      rw [stage, ← sum]
      rfl
    · exact (second_unrun blocking).trans unrun.symm

theorem nextWake_goes (within : j.Within) (i : Nat)
    (stage : p.stage =
      .running j.call.op j.call.trying (j.moved + (j.num + j.restClaimed)) (j.moved + j.num))
    (unrun : p.unrun = j.unrun j.num) : Goes p (j.nextWake i) := by
  unfold nextWake
  split_ifs
  · exact .on stage.symm unrun.symm within
  · exact finish_goes within stage unrun

theorem ready_goes (within : j.Within) (blocking : j.call.trying = false) (i : Nat) (w : Wait) :
    Goes (.wait j i w) (j.ready i) := by
  unfold ready
  split_ifs
  · exact .on rfl rfl ⟨within, blocking⟩
  · exact .on rfl rfl within

theorem startTry_goes (trying : j.call.trying = true) (within : j.Within)
    (stage : p.stage = .running j.call.op true j.moved j.moved) (unrun : p.unrun = none) :
    Goes p j.startTry := by
  unfold startTry
  split_ifs
  · exact .back rfl stage unrun (Or.inl rfl)
  · exact .on (by rw [stage, Pc.stage, trying]) unrun.symm within

end Job

section Awaken

variable (q : BoundedQueue α) (slot : Nat) (p : Pc α)

@[simp] theorem awaken_stage : (p.awaken q slot).stage = p.stage := by
  unfold Pc.awaken
  split
  · split_ifs <;> rfl
  · rfl

@[simp] theorem awaken_unrun : (p.awaken q slot).unrun = p.unrun := by
  unfold Pc.awaken
  split
  · split_ifs <;> rfl
  · rfl

@[simp] theorem awaken_within : (p.awaken q slot).Within = p.Within := by
  unfold Pc.awaken
  split
  · split_ifs <;> rfl
  · rfl

end Awaken

/-! ## Who may go on -/

section Served

variable {s : State Tid α} {k : Nat}

/-- The push of a ticket finds its slot free when the pop of the round before has claimed it. -/
theorem Inv.lt_of_ready_prod (h : Inv s) (ready : Ready s.q.capacity s.hist .prod k) :
    k < s.q.nextIndex .cons + s.q.capacity := by
  by_contra far
  have low := h.fresh .cons (k - s.q.capacity) (by omega)
  have slot : (k - s.q.capacity) % s.q.capacity = k % s.q.capacity :=
    (Nat.mod_eq_sub_mod (by omega)).symm
  have round : k / s.q.capacity = (k - s.q.capacity) / s.q.capacity + 1 :=
    Nat.div_eq_sub_div h.sized.capacity_pos (by omega)
  rw [slot, ready, phase, phase, round] at low
  omega

/-- The pop of a ticket finds an element when a push has claimed the ticket. -/
theorem Inv.lt_of_ready_cons (h : Inv s) (ready : Ready s.q.capacity s.hist .cons k) :
    k < s.q.nextIndex .prod := by
  by_contra far
  have low := h.fresh .prod k (by omega)
  rw [ready, phase, phase] at low
  omega

end Served

/-! ## The two states side by side -/

/-- The lines hold the tickets that are claimed, with the elements that the pushes write. -/
structure Agrees (s : State Tid α) (q : FairQueue Tid α) (puts : List (Tid × α))
    (takes : List Tid) : Prop where
  numbered : FairQueue.Numbered s.q.capacity q puts takes (fun t => (s.pc t).span .prod)
    fun t => (s.pc t).span .cons
  puts_length : puts.length = s.q.nextIndex .prod
  takes_length : takes.length = s.q.nextIndex .cons
  stage : q.stage = fun t => (s.pc t).stage
  within : ∀ t, (s.pc t).Within
  ran : ∀ r ∈ s.hist.ran .prod, puts[r.1]?.map Prod.snd = some r.2
  writes : ∀ t j, (s.pc t).unrun = some j → j.call.side = .prod →
    ∀ i < j.num, puts[j.index + i]? = some (t, j.call.item (j.moved + i))

namespace Agrees

variable {s s' : State Tid α} {q : FairQueue Tid α} {puts : List (Tid × α)} {takes : List Tid}
  {t : Tid}

theorem stage_eq (h : Agrees s q puts takes) (t : Tid) : q.stage t = (s.pc t).stage :=
  congrFun h.stage t

/-- A step that keeps the tickets. -/
theorem rest (h : Agrees s q puts takes) {q' : FairQueue Tid α}
    (numbered : FairQueue.Numbered s.q.capacity q' puts takes (fun t => (s.pc t).span .prod)
      fun t => (s.pc t).span .cons)
    (capacity : s'.q.capacity = s.q.capacity) (next : s'.q.nextIndex = s.q.nextIndex)
    (ran : s'.hist.ran .prod = s.hist.ran .prod) (stage : q'.stage = fun u => (s'.pc u).stage)
    (unrun : ∀ u, (s'.pc u).unrun = (s.pc u).unrun) (within : ∀ u, (s'.pc u).Within) :
    Agrees s' q' puts takes where
  numbered := by
    have span (u : Tid) : (s'.pc u).span = (s.pc u).span := by
      funext σ
      rw [Pc.span, unrun u, Pc.span]
    simpa only [capacity, span] using numbered
  puts_length := by rw [next, h.puts_length]
  takes_length := by rw [next, h.takes_length]
  stage := stage
  within := within
  ran := by rw [ran]; exact h.ran
  writes u j hu := h.writes u j ((unrun u).symm.trans hu)

variable [DecidableEq Tid]

theorem stage_ne_answered (hs : s.advance t = some s') (moved : Nat) :
    (s.pc t).stage ≠ .answered moved := by
  intro e
  cases hp : s.pc t with
  | returned c m => simp [State.advance, hp] at hs
  | _ =>
    rw [hp] at e
    cases e

theorem stage_goto (h : Agrees s q puts takes) {pc : Tid → Pc α} {p : FairStage α}
    (own : (pc t).stage = p) (others : ∀ u, u ≠ t → (pc u).stage = (s.pc u).stage) :
    Function.update q.stage t p = fun u => (pc u).stage := by
  funext u
  by_cases e : u = t
  · subst e
    rw [Function.update_self, own]
  · rw [Function.update_of_ne e, h.stage_eq, others u e]

omit [DecidableEq Tid] in
theorem ran_append (h : Agrees s q puts takes) (more : List (Tid × α)) {r : Nat × α}
    (hr : r ∈ s.hist.ran .prod) : (puts ++ more)[r.1]?.map Prod.snd = some r.2 := by
  obtain ⟨b, hb, same⟩ := Option.map_eq_some_iff.mp (h.ran r hr)
  rw [getElem?_append_some hb, ← same]
  rfl

/-- After a claim the thread has the tickets that it has claimed. -/
theorem claimed (h : Agrees s q puts takes) {c : Call α} {n arrived : Nat} {p : Pc α}
    (none : (s.pc t).unrun = none)
    (unrun : p.unrun =
      if n = 0 then Option.none else some ⟨c, s.q.nextIndex c.side, n, 0, arrived⟩)
    (within : p.Within) {q' : FairQueue Tid α} {more : List (Tid × α)} {takes' : List Tid}
    (numbered : FairQueue.Numbered s.q.capacity q' (puts ++ more) takes'
      (Function.update (fun u => (s.pc u).span .prod) t
        (if c.side = .prod then (s.q.nextIndex c.side, s.q.nextIndex c.side + n)
        else (s.pc t).span .prod))
      (Function.update (fun u => (s.pc u).span .cons) t
        (if c.side = .cons then (s.q.nextIndex c.side, s.q.nextIndex c.side + n)
        else (s.pc t).span .cons)))
    (puts_length : (puts ++ more).length = s.q.nextIndex .prod + if c.side = .prod then n else 0)
    (takes_length : takes'.length = s.q.nextIndex .cons + if c.side = .cons then n else 0)
    (stage : q'.stage = Function.update q.stage t p.stage)
    (new : c.side = .prod → ∀ i < n, more[i]? = some (t, c.item (arrived + i))) :
    Agrees
      { q := s.q.setNextIndex c.side (s.q.nextIndex c.side + n)
        pc := Function.update s.pc t p
        hist := s.hist.claim c.side (s.q.nextIndex c.side) n } q' (puts ++ more) takes' := by
  have others (u : Tid) (e : u ≠ t) : Function.update s.pc t p u = s.pc u :=
    Function.update_of_ne e ..
  have next := fun τ => s.q.nextIndex_advance c.side τ n
  have own (σ : Side) : FairQueue.SameSpan
      (if c.side = σ then (s.q.nextIndex c.side, s.q.nextIndex c.side + n)
      else (s.pc t).span σ) (p.span σ) := by
    rw [Pc.span_of_none none]
    exact Pc.span_claimed unrun σ
  constructor
  · simpa only [setNextIndex_capacity] using
      numbered.congr (spans_update s.pc t (own .prod)) (spans_update s.pc t (own .cons))
  · simpa only [next, eq_comm (a := Side.prod)] using puts_length
  · simpa only [next, eq_comm (a := Side.cons)] using takes_length
  · rw [stage]
    exact h.stage_goto (by simp only [Function.update_self]) fun u e => by simp only [others u e]
  · exact (Function.forall_update_iff s.pc fun _ p => p.Within).mpr
      ⟨within, fun u _ => h.within u⟩
  · exact fun r hr => h.ran_append more hr
  · intro u j hu jside i hi
    by_cases e : u = t
    · subst e
      simp only [Function.update_self, unrun] at hu
      split_ifs at hu
      cases hu
      simp only at jside hi ⊢
      rw [jside, ← h.puts_length, List.getElem?_append_right (Nat.le_add_right _ _),
        Nat.add_sub_cancel_left]
      exact new jside i hi
    · simp only [others u e] at hu
      exact getElem?_append_some (h.writes u j hu jside i hi)

/-- After the callback of a part the thread has the tickets of the second part that are claimed
with it. -/
theorem told (h : Agrees s q puts takes) {j : Job α} (hp : s.pc t = .callback j)
    (own : (s.pc t).unrun = some ⟨j.call, j.index, j.num + j.restClaimed, 0, j.moved⟩)
    {q' : FairQueue Tid α}
    (numbered : FairQueue.Numbered s.q.capacity q' puts takes
      (Function.update (fun u => (s.pc u).span .prod) t
        (if j.call.side = .prod then
          (((s.pc t).span .prod).1 + j.num, ((s.pc t).span .prod).2)
        else (s.pc t).span .prod))
      (Function.update (fun u => (s.pc u).span .cons) t
        (if j.call.side = .cons then
          (((s.pc t).span .cons).1 + j.num, ((s.pc t).span .cons).2)
        else (s.pc t).span .cons)))
    (stage : q'.stage = Function.update q.stage t (Pc.publish j 0).stage)
    (results : j.call.side = .prod → ∀ r ∈ j.results s.q, puts[r.1]?.map Prod.snd = some r.2) :
    Agrees
      { q := setValue s.q (j.written s.q)
        pc := Function.update s.pc t (.publish j 0)
        hist := s.hist.run j.call.side (j.results s.q) } q' puts takes := by
  have within : (s.pc t).Within := h.within t
  rw [hp] at within
  have others (u : Tid) (e : u ≠ t) : Function.update s.pc t (.publish j 0) u = s.pc u :=
    Function.update_of_ne e ..
  have told (σ : Side) : FairQueue.SameSpan
      (if j.call.side = σ then (((s.pc t).span σ).1 + j.num, ((s.pc t).span σ).2)
      else (s.pc t).span σ) ((Pc.publish j 0).span σ) := by
    rw [Pc.span_of_some own]
    have new := j.span_told σ
    split_ifs at new ⊢
    · exact new
    · exact new
  constructor
  · exact numbered.congr (spans_update s.pc t (told .prod)) (spans_update s.pc t (told .cons))
  · exact h.puts_length
  · exact h.takes_length
  · rw [stage]
    exact h.stage_goto (by simp only [Function.update_self]) fun u e => by simp only [others u e]
  · exact (Function.forall_update_iff s.pc fun _ p => p.Within).mpr
      ⟨within, fun u _ => h.within u⟩
  · intro r hr
    rcases (s.hist.mem_run _ _).mp hr with ⟨push, new⟩ | old
    · exact results push.symm r new
    · exact h.ran r old
  · intro u k hu side i hi
    by_cases e : u = t
    · subst e
      simp only [Function.update_self, Pc.unrun, Job.unrun] at hu
      split_ifs at hu with rest
      cases hu
      simp only at hi
      have old := h.writes u _ own side (j.num + i) (by simp only; omega)
      simp only [← Nat.add_assoc] at old
      exact old
    · simp only [others u e] at hu
      exact h.writes u k hu side i hi

/-- A move after which only the thread itself is somewhere else, with the same tickets. -/
theorem moved (h : Agrees s q puts takes) {p : Pc α} {q' : FairQueue Tid α}
    (numbered : FairQueue.Numbered s.q.capacity q' puts takes (fun t => (s.pc t).span .prod)
      fun t => (s.pc t).span .cons)
    (stage : q'.stage = Function.update q.stage t p.stage) (unrun : p.unrun = (s.pc t).unrun)
    (within : p.Within) : Agrees (s.goto t p) q' puts takes := by
  refine h.rest numbered rfl rfl rfl ?_ (fun u => ?_) ?_
  · rw [stage]
    refine h.stage_goto ?_ fun u e => ?_
    · simp only [State.goto, Function.update_self]
    · simp only [State.goto, Function.update_of_ne e]
  · by_cases e : u = t
    · subst e
      simpa only [State.goto, Function.update_self] using unrun
    · simp only [State.goto, Function.update_of_ne e]
  · exact (Function.forall_update_iff s.pc fun _ p => p.Within).mpr ⟨within, fun u _ => h.within u⟩

theorem hidden (h : Agrees s q puts takes) {p : Pc α} (stage : p.stage = (s.pc t).stage)
    (unrun : p.unrun = (s.pc t).unrun) (within : p.Within) :
    Agrees (s.goto t p) q puts takes :=
  h.moved h.numbered (by rw [stage, ← h.stage_eq, Function.update_eq_self]) unrun within

variable [DecidableEq α]

/-- A step of a thread that goes on, or that returns. -/
theorem goes (h : Agrees s q puts takes) (hs : s.advance t = some s')
    (capacity : s'.q.capacity = s.q.capacity) (next : s'.q.nextIndex = s.q.nextIndex)
    (ran : s'.hist.ran .prod = s.hist.ran .prod)
    (others : ∀ u, u ≠ t → (s'.pc u).stage = (s.pc u).stage ∧
      (s'.pc u).unrun = (s.pc u).unrun ∧ (s'.pc u).Within = (s.pc u).Within)
    (own : Goes (s.pc t) (s'.pc t)) :
    ∃ q', (FairQueue.machine Tid α s.q.capacity).run q (s.answer t).toList = some q' ∧
      Agrees s' q' puts takes := by
  have answer : s.answer t =
      match s'.pc t with
      | .returned _ _ => some (t, .answer)
      | _ => none := by
    rw [State.answer, hs]
    rfl
  have unrun (own : (s'.pc t).unrun = (s.pc t).unrun) (u : Tid) :
      (s'.pc u).unrun = (s.pc u).unrun := by
    by_cases e : u = t
    · rw [e, own]
    · exact (others u e).2.1
  have within (own : (s'.pc t).Within) (u : Tid) : (s'.pc u).Within := by
    by_cases e : u = t
    · rw [e]
      exact own
    · rw [(others u e).2.2]
      exact h.within u
  cases own with
  | on stage same part =>
    have quiet : s.answer t = none := by
      rw [answer]
      cases hp : s'.pc t with
      | returned c m =>
        rw [hp] at stage
        exact absurd stage.symm (stage_ne_answered hs m)
      | _ => rfl
    have stages := h.stage_goto stage fun u e => (others u e).1
    rw [← h.stage_eq, Function.update_eq_self] at stages
    rw [quiet]
    exact ⟨q, rfl, h.rest h.numbered capacity next ran stages (unrun same) (within part)⟩
  | @back c moved op trying returns stage none all =>
    have asked : q.stage t = .running op trying moved moved := (h.stage_eq t).trans stage
    have back : s.answer t = some (t, .answer) := by rw [answer, returns]
    have told : q.step s.q.capacity (t, .answer) = some (q.goto t (.answered moved)) := by
      simp only [FairQueue.step, asked]
      rw [if_pos ⟨trivial, all⟩]
    rw [back]
    refine ⟨q.goto t (.answered moved), Machine.run_one told, ?_⟩
    refine h.rest (h.numbered.goto t _) capacity next ran
      (h.stage_goto (by rw [returns]; rfl) fun u e => (others u e).1)
      (unrun (by rw [returns, none]; rfl)) (within (by rw [returns]; trivial))

/-- A thread claims tickets. -/
theorem claim (h : Agrees s q puts takes) (sized : s.q.Sized) {c : Call α} {n arrived told : Nat}
    (stage : (s.pc t).stage = .running c.op c.trying arrived told)
    (none : (s.pc t).unrun = none) {p : Pc α}
    (stage' : p.stage = .running c.op c.trying (arrived + n) told)
    (unrun : p.unrun =
      if n = 0 then Option.none else some ⟨c, s.q.nextIndex c.side, n, 0, arrived⟩)
    (within : p.Within)
    (fits : if c.trying then arrived + n ≤ c.num ∧
        match c.side with
        | .prod => s.q.nextIndex .prod + n ≤ s.q.nextIndex .cons + s.q.capacity
        | .cons => s.q.nextIndex .cons + n ≤ s.q.nextIndex .prod
      else arrived = 0 ∧ n = c.num) :
    ∃ q' puts' takes',
      (FairQueue.machine Tid α s.q.capacity).run q [(t, .arrive n)] = some q' ∧
        Agrees
          { q := s.q.setNextIndex c.side (s.q.nextIndex c.side + n)
            pc := Function.update s.pc t p
            hist := s.hist.claim c.side (s.q.nextIndex c.side) n } q' puts' takes' := by
  have asked := (h.stage_eq t).trans stage
  have le : arrived + n ≤ c.num := by
    split_ifs at fits
    · exact fits.1
    · omega
  have span (σ : Side) : ((s.pc t).span σ).2 ≤ ((s.pc t).span σ).1 := by
    rw [Pc.span, none]
  have stages : ((q.lineUp s.q.capacity t arrived n c.op).goto t
      (.running c.op c.trying (arrived + n) told)).stage =
        Function.update q.stage t p.stage := by
    rw [FairQueue.goto, FairQueue.lineUp_stage, stage']
  have moves (fits : if c.trying then
        arrived + n ≤ c.op.size ∧ (q.lineUp s.q.capacity t arrived n c.op).waits c.op = false
        else arrived = 0 ∧ n = c.op.size) :
      (FairQueue.machine Tid α s.q.capacity).run q [(t, .arrive n)] =
        some ((q.lineUp s.q.capacity t arrived n c.op).goto t
          (.running c.op c.trying (arrived + n) told)) :=
    Machine.run_one (FairQueue.step_arrive asked fits)
  rw [Call.op_size] at moves
  obtain side | side : c.side = .prod ∨ c.side = .cons := by cases c.side <;> simp
  · have op : c.op = .put c.items := by rw [Call.op, side]
    have numbered := h.numbered.lineUp_put (span .prod)
      (show arrived + n ≤ c.items.length by simpa using le)
    rw [← op] at numbered
    have length : (puts ++ ((c.items.drop arrived).take n).map (Prod.mk t)).length =
        s.q.nextIndex .prod + n := by
      rw [List.length_append, h.puts_length, List.length_map, List.length_take,
        List.length_drop, Call.items_length]
      omega
    refine ⟨_, puts ++ ((c.items.drop arrived).take n).map (Prod.mk t), takes, moves ?_,
      h.claimed none unrun within ?_ ?_ ?_ stages fun _ i hi => ?_⟩
    · have room := numbered.waits_put c.items
      rw [length, h.takes_length, ← op] at room
      rw [side] at fits
      split_ifs at fits ⊢
      · exact ⟨le, room.mpr fits.2⟩
      · exact fits
    · simpa only [side, if_true, reduceCtorEq, if_false, Function.update_eq_self,
        ← h.puts_length] using numbered.goto t (.running c.op c.trying (arrived + n) told)
    · rw [length, if_pos side]
    · simp only [h.takes_length, side, reduceCtorEq, if_false, Nat.add_zero]
    · simp [Call.items, hi, show arrived + i < c.num by omega]
  · have op : c.op = .take c.num := by rw [Call.op, side]
    have numbered := h.numbered.lineUp_take sized.capacity_pos (span .cons) arrived n c.num
    rw [← op] at numbered
    have length : (takes ++ List.replicate n t).length = s.q.nextIndex .cons + n := by
      rw [List.length_append, h.takes_length, List.length_replicate]
    refine ⟨_, puts ++ [], takes ++ List.replicate n t, moves ?_,
      h.claimed none unrun within ?_ ?_ ?_ stages fun push => ?_⟩
    · have given := numbered.waits_take c.num
      rw [length, h.puts_length, ← op] at given
      rw [side] at fits
      split_ifs at fits ⊢
      · exact ⟨le, given.mpr fits.2⟩
      · exact fits
    · simpa only [side, if_true, reduceCtorEq, if_false, Function.update_eq_self,
        ← h.takes_length, List.append_nil] using
          numbered.goto t (.running c.op c.trying (arrived + n) told)
    · simp only [List.append_nil, h.puts_length, side, reduceCtorEq, if_false, Nat.add_zero]
    · rw [length, if_pos side]
    · exact absurd (side.symm.trans push) Side.noConfusion

/-- The callback of a part runs, which tells the caller about its elements. -/
theorem callback (h : Agrees s q puts takes) (inv : Inv s) {j : Job α}
    (hp : s.pc t = .callback j) (pos : 0 < j.num) :
    ∃ q', (FairQueue.machine Tid α s.q.capacity).run q [(t, j.told s.q)] = some q' ∧
      Agrees
        { q := setValue s.q (j.written s.q)
          pc := Function.update s.pc t (.publish j 0)
          hist := s.hist.run j.call.side (j.results s.q) } q' puts takes := by
  have asked := h.stage_eq t
  rw [hp] at asked
  have own : (s.pc t).unrun =
      some ⟨j.call, j.index, j.num + j.restClaimed, 0, j.moved⟩ := by
    rw [hp, Pc.unrun, Job.unrun, if_neg (by omega)]
    rfl
  have span := Pc.span_of_some own j.call.side
  simp only [if_true] at span
  obtain ⟨-, ready⟩ := inv.callback_ok hp
  let next : FairStage α := (Pc.publish j 0).stage
  obtain side | side : j.call.side = .prod ∨ j.call.side = .cons := by cases j.call.side <;> simp
  · have op : j.call.op = .put j.call.items := by rw [Call.op, side]
    rw [side] at span
    have room := inv.lt_of_ready_prod (side ▸ ready (j.num - 1) (by omega))
    rw [← h.takes_length] at room
    have entered : j.num ≤ q.entered t := by
      rw [h.numbered.entered, span]
      simp only
      omega
    have told : q.step s.q.capacity (t, j.told s.q) = some
        { q.goto t next with
          entered := Function.update q.entered t (q.entered t - j.num) } := by
      rw [Pc.stage, op] at asked
      simp only [next, Pc.stage, Job.told, side, FairQueue.step, asked, if_pos entered, op]
    refine ⟨_, Machine.run_one told, h.told hp own ?_ rfl fun _ r hr => ?_⟩
    · simpa only [side, if_true, reduceCtorEq, if_false, Function.update_eq_self] using
        h.numbered.tellEntered entered next
    · obtain ⟨i, hi, rfl⟩ := (j.mem_results s.q).mp hr
      rw [if_pos side, h.writes t _ own side i (by simp only; omega)]
      rfl
  · have op : j.call.op = .take j.call.num := by rw [Call.op, side]
    rw [side] at span
    have length : ((j.results s.q).map Prod.snd).length = j.num := by simp [Job.results]
    have received : (j.results s.q).map Prod.snd <+: q.given t := by
      rw [h.numbered.given, span, List.prefix_iff_getElem?]
      intro i hi
      rw [length] at hi
      have mine : (j.index + i, s.q.value (j.slot s.q + i)) ∈
          (s.hist.run j.call.side (j.results s.q)).ran .cons :=
        (s.hist.mem_run _ _).mpr (Or.inl ⟨side.symm, (j.mem_results s.q).mpr
          ⟨i, hi, by rw [if_neg (by rw [side]; exact Side.noConfusion)]⟩⟩)
      rw [List.getElem?_map, FairQueue.slice_getElem? (by omega),
        h.ran _ (inv.callback_received hp mine)]
      simp [Job.results, side]
    have told : q.step s.q.capacity (t, j.told s.q) = some
        { q.goto t next with
          given := Function.update q.given t ((q.given t).drop j.num) } := by
      rw [Pc.stage, op] at asked
      simp only [next, Pc.stage, Job.told, side, FairQueue.step, asked, if_pos received, op,
        length]
    refine ⟨_, Machine.run_one told, h.told hp own ?_ rfl fun push => ?_⟩
    · simpa only [side, if_true, reduceCtorEq, if_false, Function.update_eq_self] using
        h.numbered.tellGiven (length ▸ received.length_le) next
    · exact absurd (side.symm.trans push) Side.noConfusion

/-- A step after which only the thread itself is somewhere else. -/
theorem goes_update (h : Agrees s q puts takes) {p : Pc α} (hs : s.advance t = some s')
    (pc : s'.pc = Function.update s.pc t p) (capacity : s'.q.capacity = s.q.capacity)
    (next : s'.q.nextIndex = s.q.nextIndex) (ran : s'.hist.ran .prod = s.hist.ran .prod)
    (own : Goes (s.pc t) p) :
    ∃ q', (FairQueue.machine Tid α s.q.capacity).run q (s.answer t).toList = some q' ∧
      Agrees s' q' puts takes := by
  refine h.goes hs capacity next ran (fun u e => ?_) ?_
  · rw [pc, Function.update_of_ne e]
    exact ⟨rfl, rfl, rfl⟩
  · rw [pc, Function.update_self]
    exact own

theorem goes_goto (h : Agrees s q puts takes) {p : Pc α} (hs : s.advance t = some (s.goto t p))
    (own : Goes (s.pc t) p) :
    ∃ q', (FairQueue.machine Tid α s.q.capacity).run q (s.answer t).toList = some q' ∧
      Agrees (s.goto t p) q' puts takes :=
  h.goes_update hs rfl rfl rfl rfl own

/-- A blocking call lines up for all its elements. -/
theorem fetchAdd (h : Agrees s q puts takes) (inv : Inv s) {c : Call α}
    (hp : s.pc t = .fetchAdd c) :
    ∃ q' puts' takes',
      (FairQueue.machine Tid α s.q.capacity).run q [(t, .arrive c.num)] = some q' ∧
        Agrees
          { q := s.q.setNextIndex c.side (s.q.nextIndex c.side + c.num)
            pc := Function.update s.pc t (c.job s.q (s.q.nextIndex c.side)).startWait
            hist := s.hist.claim c.side (s.q.nextIndex c.side) c.num } q' puts' takes' := by
  have loc := inv.locals t
  rw [hp] at loc
  obtain ⟨fits, blocking⟩ := loc
  obtain ⟨-, call, index, total⟩ := c.job_ok inv.sized fits (s.q.nextIndex c.side)
  have moved := c.job_moved s.q (s.q.nextIndex c.side)
  generalize c.job s.q (s.q.nextIndex c.side) = j at *
  have rest : j.restClaimed = j.rest := Job.restClaimed_of_blocking (call ▸ blocking)
  have within : j.Within := by
    rw [Job.Within, call, blocking, moved]
    simpa using total
  have start {β : Type _} (f : Pc α → β) (same : f (.wait j 0 .load) = f (.callback j)) :
      f j.startWait = f (.callback j) := by
    unfold Job.startWait
    split_ifs
    · rfl
    · exact same
  have stage : (s.pc t).stage = .running c.op c.trying 0 0 := by rw [hp]; rfl
  refine h.claim inv.sized stage (by rw [hp]; rfl) ?_ ?_ ?_ ?_
  · rw [start Pc.stage rfl, Pc.stage, call, moved, rest, total]
  · rw [start Pc.unrun rfl, Pc.unrun, Job.unrun, call, index, moved, rest, total]
    simp only [Nat.le_zero, Nat.sub_zero, Nat.add_zero]
  · unfold Job.startWait
    split_ifs
    · exact within
    · exact ⟨within, call ▸ blocking⟩
  · rw [blocking]
    exact ⟨rfl, rfl⟩

/-- A call that only tries lines up for the elements that need not wait. -/
theorem tryClaim (h : Agrees s q puts takes) (inv : Inv s) {j : Job α}
    (hp : s.pc t = .tryClaim j) (current : s.q.nextIndex j.call.side = j.index) :
    ∃ q' puts' takes',
      (FairQueue.machine Tid α s.q.capacity).run q [(t, .arrive j.num)] = some q' ∧
        Agrees
          { q := s.q.setNextIndex j.call.side (j.index + j.num)
            pc := Function.update s.pc t (.callback j)
            hist := s.hist.claim j.call.side j.index j.num } q' puts' takes' := by
  have loc := inv.locals t
  rw [hp] at loc
  obtain ⟨-, trying, pos, -, ready⟩ := loc
  have within : j.Within := by
    have := h.within t
    rwa [hp] at this
  have none := Job.restClaimed_of_trying trying
  rw [← current]
  refine h.claim inv.sized (by rw [hp]; rfl) (by rw [hp]; rfl) ?_ ?_ within ?_
  · rw [Pc.stage, none, Nat.add_zero]
  · rw [Pc.unrun, Job.unrun, none, current]
    simp only [Nat.le_zero, Nat.sub_zero, Nat.add_zero]
  · rw [Job.Within, if_pos trying] at within
    rw [if_pos trying]
    refine ⟨by omega, ?_⟩
    have last := ready current (j.num - 1) (by omega)
    cases side : j.call.side with
    | prod =>
      have room := inv.lt_of_ready_prod (side ▸ last)
      rw [side] at current
      simp only
      omega
    | cons =>
      have some := inv.lt_of_ready_cons (side ▸ last)
      rw [side] at current
      simp only
      omega

/-- A thread that waits is where it was, or its slot is ready. -/
theorem advanceWait (h : Agrees s q puts takes) {j : Job α} {i : Nat} {w : Wait}
    (hp : s.pc t = .wait j i w) (hs : s.advance t = some s') :
    ∃ q', (FairQueue.machine Tid α s.q.capacity).run q (s.answer t).toList = some q' ∧
      Agrees s' q' puts takes := by
  have within := h.within t
  rw [hp] at within
  have ready : Goes (s.pc t) (j.ready i) := by
    rw [hp]
    exact Job.ready_goes within.1 within.2 i w
  have wait (w' : Wait) : Goes (s.pc t) (.wait j i w') := by
    rw [hp]
    exact .on rfl rfl within
  have step := hs
  simp only [State.advance, hp] at step
  cases w with
  | load =>
    simp only [State.advanceWait] at step
    split_ifs at step <;> cases step
    · exact h.goes_goto hs ready
    · exact h.goes_goto hs (wait _)
    · exact h.goes_goto hs (wait _)
  | mark word =>
    simp only [State.advanceWait] at step
    split_ifs at step <;> cases step
    · exact h.goes_update hs rfl rfl (by funext σ; cases σ <;> rfl) rfl (wait _)
    · exact h.goes_goto hs ready
    · exact h.goes_goto hs (wait _)
  | sleep word =>
    simp only [State.advanceWait] at step
    split_ifs at step <;> cases step
    · exact h.goes_goto hs (wait _)
    · exact h.goes_goto hs (wait _)
  | asleep word => cases step
  | reload =>
    simp only [State.advanceWait] at step
    split_ifs at step <;> cases step
    · exact h.goes_goto hs ready
    · exact h.goes_goto hs (wait _)
  | spin =>
    simp only [State.advanceWait] at step
    split_ifs at step <;> cases step
    · exact h.goes_goto hs ready
    · exact h.goes_goto hs (wait _)

/-- A thread that looks for waiters goes on, or its call is done. -/
theorem advanceWake (h : Agrees s q puts takes) {j : Job α} {i : Nat}
    (hp : s.pc t = .wakeLoad j i ∨ (∃ word, s.pc t = .wakeClear j i word) ∨ s.pc t = .wakeAll j i)
    (hs : s.advance t = some s') :
    ∃ q', (FairQueue.machine Tid α s.q.capacity).run q (s.answer t).toList = some q' ∧
      Agrees s' q' puts takes := by
  have within := h.within t
  have known : (s.pc t).stage = .running j.call.op j.call.trying
      (j.moved + (j.num + j.restClaimed)) (j.moved + j.num) ∧
        (s.pc t).unrun = j.unrun j.num ∧ j.Within := by
    rcases hp with hp | ⟨word, hp⟩ | hp <;> rw [hp] at within ⊢ <;> exact ⟨rfl, rfl, within⟩
  obtain ⟨stage, unrun, within⟩ := known
  have next := Job.nextWake_goes within i stage unrun
  have step := hs
  rcases hp with hp | ⟨word, hp⟩ | hp <;> simp only [State.advance, hp] at step
  · split_ifs at step <;> cases step
    · exact h.goes_goto hs next
    · exact h.goes_goto hs next
    · exact h.goes_goto hs (.on stage.symm unrun.symm within)
  · split_ifs at step <;> cases step
    · exact h.goes_update hs rfl rfl (by funext σ; cases σ <;> rfl) rfl
        (.on stage.symm unrun.symm within)
    · exact h.goes_goto hs next
  · cases step
    refine h.goes hs rfl rfl rfl (fun u e => ?_) (by simpa only [Function.update_self] using next)
    simp only [Function.update_of_ne e, awaken_stage, awaken_unrun, awaken_within, and_self]

/-- A slot is published. -/
theorem advancePublish (h : Agrees s q puts takes) {j : Job α} {i : Nat}
    (hp : s.pc t = .publish j i) (hs : s.advance t = some s') :
    ∃ q', (FairQueue.machine Tid α s.q.capacity).run q (s.answer t).toList = some q' ∧
      Agrees s' q' puts takes := by
  have within := h.within t
  rw [hp] at within
  have on {p : Pc α} (stage : p.stage = (Pc.publish j i).stage)
      (unrun : p.unrun = (Pc.publish j i).unrun) (same : p.Within) : Goes (s.pc t) p := by
    rw [hp]
    exact .on stage unrun same
  have finish : Goes (s.pc t) j.finish := by
    rw [hp]
    exact Job.finish_goes within rfl rfl
  have next (q' : BoundedQueue α) (push : q'.nextPushIndex = s.q.nextPushIndex)
      (pop : q'.nextPopIndex = s.q.nextPopIndex) : q'.nextIndex = s.q.nextIndex := by
    funext σ
    cases σ
    · exact push
    · exact pop
  have step := hs
  simp only [State.advance, hp] at step
  split_ifs at step <;> cases step
  · exact h.goes_update hs rfl rfl (next _ rfl rfl) rfl finish
  · exact h.goes_update hs rfl rfl (next _ rfl rfl) rfl (on rfl rfl within)
  · exact h.goes_update hs rfl rfl (next _ rfl rfl) rfl (on rfl rfl within)
  · exact h.goes_update hs rfl rfl (next _ rfl rfl) rfl (on rfl rfl within)
  · exact h.goes_update hs rfl rfl (next _ rfl rfl) rfl finish

/-- A call that only tries looks at a slot. -/
theorem advanceCheck (h : Agrees s q puts takes) (inv : Inv s) {j : Job α} {i : Nat}
    (hp : s.pc t = .tryCheck j i) (hs : s.advance t = some s') :
    ∃ q', (FairQueue.machine Tid α s.q.capacity).run q (s.answer t).toList = some q' ∧
      Agrees s' q' puts takes := by
  have loc := inv.locals t
  rw [hp] at loc
  obtain ⟨-, trying, lt, -⟩ := loc
  have within := h.within t
  rw [hp] at within
  have on {p : Pc α} (stage : p.stage = (Pc.tryCheck j i).stage) (unrun : p.unrun = none)
      (same : p.Within) : Goes (s.pc t) p := by
    rw [hp]
    exact .on stage unrun same
  have step := hs
  simp only [State.advance, hp] at step
  split_ifs at step <;> cases step
  · exact h.goes_goto hs (on rfl rfl within)
  · exact h.goes_goto hs (.back rfl (by rw [hp]; rfl) (by rw [hp]; rfl) (Or.inl trying))
  · refine h.goes_goto hs (on rfl rfl ?_)
    simp only [Pc.Within, Job.Within, if_pos trying] at within ⊢
    omega
  · exact h.goes_goto hs (on rfl rfl within)
  · exact h.goes_goto hs (on rfl rfl within)

/-- Every step of a thread is a step of the queue with two lines, or it is hidden. -/
theorem advance (h : Agrees s q puts takes) (inv : Inv s) (hs : s.advance t = some s') :
    ∃ q' puts' takes',
      (FairQueue.machine Tid α s.q.capacity).run q (s.label (t, .step)).toList = some q' ∧
        Agrees s' q' puts' takes' := by
  have within := h.within t
  have loc := inv.locals t
  have same (label : s.label (t, .step) = s.answer t)
      (goes : ∃ q', (FairQueue.machine Tid α s.q.capacity).run q (s.answer t).toList = some q' ∧
        Agrees s' q' puts takes) :
      ∃ q' puts' takes',
        (FairQueue.machine Tid α s.q.capacity).run q (s.label (t, .step)).toList = some q' ∧
          Agrees s' q' puts' takes' := by
    obtain ⟨q', run, agrees⟩ := goes
    exact ⟨q', puts, takes, by rw [label, run], agrees⟩
  have step := hs
  cases hp : s.pc t with
  | idle | returned => simp [State.advance, hp] at hs
  | fetchAdd c =>
    simp only [State.advance, hp, Option.some.injEq] at step
    subst step
    simpa only [State.label, hp, Option.toList_some] using h.fetchAdd inv hp
  | wait j i w => exact same (by simp only [State.label, hp]) (h.advanceWait hp hs)
  | loadIndex c =>
    rw [hp] at loc
    obtain ⟨-, call, -, total⟩ := c.job_ok inv.sized loc.1 (s.q.nextIndex c.side)
    have moved := c.job_moved s.q (s.q.nextIndex c.side)
    simp only [State.advance, hp, Option.some.injEq] at step
    subst step
    refine same (by simp only [State.label, hp]) (h.goes_goto hs ?_)
    generalize c.job s.q (s.q.nextIndex c.side) = j at *
    have trying : j.call.trying = true := call ▸ loc.2
    refine Job.startTry_goes trying ?_ ?_ (by rw [hp]; rfl)
    · rw [Job.Within, if_pos trying, moved, call]
      omega
    · rw [hp, Pc.stage, moved, call, loc.2]
  | tryCheck j i => exact same (by simp only [State.label, hp]) (h.advanceCheck inv hp hs)
  | tryReload j =>
    rw [hp] at loc within
    obtain ⟨ok, trying, single, -⟩ := loc
    refine same (by simp only [State.label, hp]) ?_
    simp only [State.advance, hp] at step
    split_ifs at step <;> cases step
    · have first : j.moved = 0 := by
        have one : j.call.num = 1 := by simp [Call.num, single]
        have num := (ok.single single).1
        simp only [Pc.Within, Job.Within, if_pos trying] at within
        omega
      have stage : (s.pc t).stage = .running j.call.op j.call.trying 0 0 := by
        rw [hp, Pc.stage, first]
      exact h.goes_goto hs (.back rfl stage (by rw [hp]; rfl) (Or.inl trying))
    · refine h.goes_goto hs ?_
      rw [hp]
      exact .on rfl rfl within
  | tryClaim j =>
    rw [hp] at loc within
    obtain ⟨-, trying, -⟩ := loc
    simp only [State.advance, hp] at step
    split_ifs at step with current single <;> cases step
    · simpa only [State.label, hp, if_pos current, Option.toList_some] using
        h.tryClaim inv hp current
    · refine same (by simp only [State.label, hp, if_neg current]) (h.goes_goto hs ?_)
      rw [hp]
      exact .on rfl rfl within
    · refine same (by simp only [State.label, hp, if_neg current]) (h.goes_goto hs ?_)
      exact .back rfl (by rw [hp]; rfl) (by rw [hp]; rfl) (Or.inl trying)
  | callback j =>
    rw [hp] at within
    simp only [State.advance, hp] at step
    by_cases empty : j.num = 0
    · rw [if_pos empty] at step
      refine same (by simp only [State.label, hp, if_pos empty]) ?_
      have none : j.results s.q = [] := by rw [Job.results, empty]; rfl
      have goes : Goes (s.pc t) j.finish := by
        rw [hp]
        refine Job.finish_goes within ?_ ?_
        · simp only [Pc.stage, empty, Nat.add_zero]
        · simp only [Pc.unrun, empty]
      cases step
      refine h.goes_update hs rfl rfl (setValue_nextIndex ..) ?_ goes
      simp [History.run, none]
    · rw [if_neg empty] at step
      cases step
      obtain ⟨q', run, agrees⟩ := h.callback inv hp (Nat.pos_of_ne_zero empty)
      have label : s.label (t, .step) = some (t, j.told s.q) := by
        simp only [State.label, hp, if_neg empty]
      exact ⟨q', puts, takes, by rwa [label, Option.toList_some], agrees⟩
  | publish j i => exact same (by simp only [State.label, hp]) (h.advancePublish hp hs)
  | wakeLoad j i => exact same (by simp only [State.label, hp]) (h.advanceWake (.inl hp) hs)
  | wakeClear j i word =>
    exact same (by simp only [State.label, hp]) (h.advanceWake (.inr (.inl ⟨word, hp⟩)) hs)
  | wakeAll j i => exact same (by simp only [State.label, hp]) (h.advanceWake (.inr (.inr hp)) hs)

/-- A thread enters a call. -/
theorem enter (h : Agrees s q puts takes) {c : Call α} (hs : s.enter t c = some s') :
    ∃ q', q.step s.q.capacity (t, .ask c.op c.trying) = some q' ∧ Agrees s' q' puts takes := by
  have start : (if c.trying then Pc.loadIndex c else .fetchAdd c).stage =
      .running c.op c.trying 0 0 := by split_ifs <;> rfl
  have unrun : (if c.trying then Pc.loadIndex c else .fetchAdd c).unrun = none := by
    split_ifs <;> rfl
  have within : (if c.trying then Pc.loadIndex c else .fetchAdd c).Within := by
    split_ifs <;> trivial
  have asked := h.stage_eq t
  have step : q.step s.q.capacity (t, .ask c.op c.trying) =
      some (q.goto t (.running c.op c.trying 0 0)) ∧
        s' = s.goto t (if c.trying then .loadIndex c else .fetchAdd c) ∧
          (s.pc t).unrun = none := by
    simp only [State.enter] at hs
    cases hp : s.pc t <;> rw [hp] at hs asked <;> cases hs <;>
      exact ⟨by simp only [FairQueue.step, asked, Pc.stage], rfl, rfl⟩
  obtain ⟨moves, rfl, none⟩ := step
  exact ⟨_, moves, h.moved (h.numbered.goto t _) (by rw [start]; rfl) (unrun.trans none.symm)
    within⟩

/-- Every move is a step of the queue with two lines, or it is hidden. -/
theorem step (h : Agrees s q puts takes) (inv : Inv s) {m : Tid × Move α}
    (hs : s.step m = some s') :
    ∃ q' puts' takes',
      (FairQueue.machine Tid α s.q.capacity).run q (s.label m).toList = some q' ∧
        Agrees s' q' puts' takes' := by
  obtain ⟨t, c | _ | _ | _⟩ := m
  · obtain ⟨q', asks, agrees⟩ := h.enter hs
    exact ⟨q', puts, takes, Machine.run_one asks, agrees⟩
  · exact h.advance inv hs
  · have within := h.within t
    cases hp : s.pc t <;> simp only [State.step, hp] at hs <;> try cases hs
    case tryClaim j =>
      rw [hp] at within
      split_ifs at hs with single
      cases hs
      exact ⟨q, puts, takes, rfl, h.hidden (by rw [hp]; rfl) (by rw [hp]; rfl) within⟩
  · have within := h.within t
    cases hp : s.pc t <;> simp only [State.step, hp] at hs <;> try cases hs
    case wait j i w =>
      rw [hp] at within
      cases w <;> simp only at hs <;> cases hs
      exact ⟨q, puts, takes, rfl, h.hidden (by rw [hp]; rfl) (by rw [hp]; rfl) within⟩

omit [DecidableEq α] [DecidableEq Tid] in
/-- Who waits in front of the queue has claimed a ticket for which there is no room. -/
theorem size_eq (h : Agrees s q puts takes) : q.items.length + q.putters.length = s.q.size := by
  have puts_length : puts.length = s.q.nextPushIndex := h.puts_length
  have takes_length : takes.length = s.q.nextPopIndex := h.takes_length
  rw [h.numbered.items, h.numbered.putters, FairQueue.slice, List.length_map, List.length_take,
    List.length_drop, List.length_drop, size, puts_length, takes_length]
  split_ifs <;> omega

end Agrees

theorem agrees_fresh [DecidableEq Tid] (zero : α) (minCapacity : Nat) :
    Agrees (fresh Tid zero minCapacity) {} [] [] where
  numbered := FairQueue.Numbered.init _
  puts_length := rfl
  takes_length := rfl
  stage := rfl
  within _ := trivial
  ran _ hr := absurd hr List.not_mem_nil
  writes _ _ hu := by cases hu

/-- Every interleaving is a run of a bounded queue that serves its callers in the order of their
arrival, with the moments at which the calls claim their tickets, run their callbacks and return.
At its end every call is where it is in the other queue, and `size` counts the elements that are in
and those that wait in front of it. -/
theorem refinesFair [DecidableEq Tid] [DecidableEq α] (zero : α) (minCapacity : Nat)
    {s : State Tid α} {is : List (Tid × Move α)}
    (along : (machine Tid zero minCapacity).Along disciplined (fresh Tid zero minCapacity) is)
    (hr : (machine Tid zero minCapacity).run (fresh Tid zero minCapacity) is = some s) :
    ∃ q, (FairQueue.machine Tid α (reserveAndClear zero minCapacity).capacity).run {}
        ((machine Tid zero minCapacity).trace State.label (fresh Tid zero minCapacity) is) =
          some q ∧
      q.stage = (fun t => (s.pc t).stage) ∧
      q.items.length + q.putters.length = s.q.size := by
  let R (s : State Tid α) (q : FairQueue Tid α) : Prop :=
    Inv s ∧ s.q.capacity = (reserveAndClear zero minCapacity).capacity ∧
      ∃ puts takes, Agrees s q puts takes
  have start : R (fresh Tid zero minCapacity) {} :=
    ⟨inv_fresh .., rfl, [], [], agrees_fresh zero minCapacity⟩
  obtain ⟨q, run, -, -, puts, takes, agrees⟩ := along.simulates hr start <| by
    rintro s m s' q ⟨inv, capacity, puts, takes, agrees⟩ hs ⟨fits, spans⟩
    obtain ⟨q', puts', takes', run, agrees'⟩ := agrees.step inv hs
    rw [capacity] at run
    have inv' := inv.step spans fits hs
    exact ⟨q', run, inv', (inv.capacity_step inv' hs).trans capacity, puts', takes', agrees'⟩
  exact ⟨q, run, agrees.stage, agrees.size_eq⟩

/-- The push that waits for the pop lines up before the batch is popped, and the `try_pop_n` gets
its two elements one after the other. -/
theorem refinesFair_splitBatch :
    ∃ s q, (machine Nat 0 2).run (fresh Nat 0 2) splitBatch = some s ∧
      (FairQueue.machine Nat Nat (reserveAndClear 0 2).capacity).run {}
        ((machine Nat 0 2).trace State.label (fresh Nat 0 2) splitBatch) = some q ∧
      q.stage 2 = .answered 2 ∧ q.items.length + q.putters.length = 0 ∧
      ((machine Nat 0 2).trace State.label (fresh Nat 0 2) splitBatch).filter (·.1 = 2) =
        [(2, .ask (.take 1) false), (2, .arrive 1), (2, .received [5]), (2, .answer),
          (2, .ask (.take 2) true), (2, .arrive 1), (2, .received [7]), (2, .arrive 1),
          (2, .received [8]), (2, .answer)] := by
  have few : (machine Nat 0 2).Along short (fresh Nat 0 2) splitBatch := by decide +kernel
  have along := along_of_short 0 2 (inv_fresh ..) few
  have seen : ((machine Nat 0 2).run (fresh Nat 0 2) splitBatch).map
      (fun s => ((s.pc 2).stage, s.q.size)) = some (.answered 2, 0) := by decide +kernel
  obtain ⟨s, run, at_⟩ := Option.map_eq_some_iff.mp seen
  simp only [Prod.mk.injEq] at at_
  obtain ⟨q, fair, stage, size⟩ := refinesFair 0 2 along run
  exact ⟨s, q, run, fair, (congrFun stage 2).trans at_.1, size.trans at_.2, by decide +kernel⟩

end Fuxi.Base.BoundedQueue
