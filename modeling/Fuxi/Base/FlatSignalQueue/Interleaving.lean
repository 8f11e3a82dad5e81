import Fuxi.Base.FlatSignalQueue
import Fuxi.Lib.Census

/-!
# `TryPush` and `TryPop` under interleaving

Any number of threads run `TryPush` and `TryPop`. One step of a thread is one
`fetch_add` or `fetch_sub` of `available_size_` or one operation of the ring. A call that
fails has changed the counter before it knows, and restores it in a later step.
-/

namespace Fuxi.Base.FlatSignalQueue

open Lib

variable {α Tid : Type*}

/-- What a thread does next. -/
inductive Pc (α : Type*)
  | idle
  | pushAdd (v : α)
  | pushRing (v : α)
  | pushSub
  | pushed (ret : Bool)
  | popSub
  | popRing
  | popAdd
  | popped (value : Option α)

/-- The queue and the threads. `admitted` and `taken` count the calls of `TryPush` and
`TryPop` that have passed their check, `removed` counts the elements that have left the
ring, and `sawFull t` says whether the queue has been full in some state since the call of
`t` started; no step of the code reads them. -/
structure Shared (Tid α : Type*) where
  queue : FlatSignalQueue α
  pc : Tid → Pc α := fun _ => .idle
  admitted : Nat := 0
  taken : Nat := 0
  removed : Nat := 0
  sawFull : Tid → Bool := fun _ => false

/-- A thread starts a call or goes on. -/
inductive SharedMove (α : Type*)
  | tryPush (v : α)
  | tryPop
  | step

namespace Shared

/-- The elements that are admitted and not removed fill the queue. -/
def Full (s : Shared Tid α) : Prop := s.queue.queueCapacity + s.removed ≤ s.admitted

instance (s : Shared Tid α) : Decidable s.Full := inferInstanceAs (Decidable (_ ≤ _))

/-- A full queue is seen by all calls. -/
def note (s : Shared Tid α) : Shared Tid α :=
  { s with sawFull := fun u => s.sawFull u || decide s.Full }

variable [DecidableEq Tid]

def goto (s : Shared Tid α) (t : Tid) (p : Pc α) : Shared Tid α :=
  { s with pc := Function.update s.pc t p }

/-- The next step of a thread; `blank` is the value that the caller of `TryPop` passes. -/
def advance (blank : α) (s : Shared Tid α) (t : Tid) : Option (Shared Tid α) :=
  match s.pc t with
  | .idle | .pushed _ | .popped _ => none
  | .pushAdd v =>
    let queue := { s.queue with availableSize := i32 (s.queue.availableSize + 1) }
    if s.queue.roomSeen then
      some { s.goto t (.pushRing v) with queue := queue, admitted := s.admitted + 1 }
    else some { s.goto t .pushSub with queue := queue }
  | .pushRing v =>
    match s.queue.evQueue.tryDeal .prod v with
    | none => some s
    | some (q, _) => some { s.goto t (.pushed true) with queue := { s.queue with evQueue := q } }
  | .pushSub =>
    some { s.goto t (.pushed false) with
      queue := { s.queue with availableSize := i32 (s.queue.availableSize - 1) } }
  | .popSub =>
    let queue := { s.queue with availableSize := i32 (s.queue.availableSize - 1) }
    if s.queue.availableSize < 1 then some { s.goto t .popAdd with queue := queue }
    else some { s.goto t .popRing with queue := queue, taken := s.taken + 1 }
  | .popRing =>
    match s.queue.evQueue.tryDealN .cons 1 fun _ => blank with
    | (q, []) => some { s with queue := { s.queue with evQueue := q } }
    | (q, v :: _) =>
      some { s.goto t (.popped (some v)) with
        queue := { s.queue with evQueue := q }
        removed := s.removed + 1 }
  | .popAdd =>
    some { s.goto t (.popped none) with
      queue := { s.queue with availableSize := i32 (s.queue.availableSize + 1) } }

/-- A thread that is in no call starts one. -/
def enter (s : Shared Tid α) (t : Tid) (p : Pc α) : Option (Shared Tid α) :=
  match s.pc t with
  | .idle | .pushed _ | .popped _ =>
    some { s.goto t p with sawFull := Function.update s.sawFull t false }
  | _ => none

def step (blank : α) (s : Shared Tid α) : Tid × SharedMove α → Option (Shared Tid α)
  | (t, .tryPush v) => (s.enter t (.pushAdd v)).map note
  | (t, .tryPop) => (s.enter t .popSub).map note
  | (t, .step) => (s.advance blank t).map note

end Shared

/-- Any number of threads use a queue of capacity `num`. -/
def sharedMachine (Tid : Type*) [DecidableEq Tid] (blank : α) (num : Nat) :
    Machine (Shared Tid α) (Tid × SharedMove α) where
  start s := s = Shared.note { queue := initialized blank num }
  step := Shared.step blank

/-! ## What the counter shows -/

/-- Admitted and not in the ring yet. -/
def Pc.pushing : Pc α → Bool
  | .pushRing _ => true
  | _ => false

/-- Refused, and the counter is not restored yet. -/
def Pc.refused : Pc α → Bool
  | .pushSub => true
  | _ => false

/-- Past the check, and the element is still in the ring. -/
def Pc.popping : Pc α → Bool
  | .popRing => true
  | _ => false

/-- Without an element, and the counter is not restored yet. -/
def Pc.failing : Pc α → Bool
  | .popAdd => true
  | _ => false

/-- `TryPush` before its `fetch_add`. -/
def Pc.adding : Pc α → Bool
  | .pushAdd _ => true
  | _ => false

/-- `TryPop` before its `fetch_sub`. -/
def Pc.subtracting : Pc α → Bool
  | .popSub => true
  | _ => false

/-- A refused `TryPush`, until its thread starts the next call. -/
def Pc.rejected : Pc α → Bool
  | .pushSub | .pushed false => true
  | _ => false

namespace Shared

variable [Fintype Tid]

/-- The number that the counter shows, unless it wraps: the admitted calls of `TryPush` less
those of `TryPop`, and every failing call that has not restored the counter. -/
def shown (s : Shared Tid α) : Int :=
  s.admitted - s.taken + census s.pc Pc.refused - census s.pc Pc.failing

/-- Where the elements are, and what the counter shows. -/
structure Counts (num : Nat) (s : Shared Tid α) : Prop where
  capacity : s.queue.queueCapacity = num
  room : num ≤ s.queue.evQueue.capacity
  counter : s.queue.availableSize = i32 s.shown
  taken : s.taken = s.removed + census s.pc Pc.popping
  ring : ∃ xs, s.queue.evQueue.Holds xs ∧
    s.admitted = s.removed + xs.length + census s.pc Pc.pushing

section Note

variable (s : Shared Tid α)

omit [Fintype Tid]

@[simp] theorem note_queue : s.note.queue = s.queue := rfl
@[simp] theorem note_pc : s.note.pc = s.pc := rfl
@[simp] theorem note_admitted : s.note.admitted = s.admitted := rfl
@[simp] theorem note_taken : s.note.taken = s.taken := rfl

end Note

theorem Counts.note {num : Nat} {s : Shared Tid α} (h : Counts num s) : Counts num s.note :=
  ⟨h.capacity, h.room, h.counter, h.taken, h.ring⟩

theorem counts_start (blank : α) (num : Nat) :
    Counts num ({ queue := initialized blank num } : Shared Tid α) where
  capacity := rfl
  room := le_bitCeil num
  counter := by simp [shown, initialized, census, Pc.refused, Pc.failing, i32]
  taken := by simp [census, Pc.popping]
  ring := ⟨[], BoundedQueue.reserveAndClear_holds blank num, by simp [census, Pc.pushing]⟩

variable [DecidableEq Tid] {num : Nat} {blank : α} {s s' : Shared Tid α} {t : Tid}

/-- What happens to the four numbers when a thread moves. -/
theorem census_goto {old : Pc α} (hp : s.pc t = old) (p : Pc α) :
    census (Function.update s.pc t p) Pc.pushing + old.pushing.toNat =
        census s.pc Pc.pushing + p.pushing.toNat ∧
      census (Function.update s.pc t p) Pc.refused + old.refused.toNat =
        census s.pc Pc.refused + p.refused.toNat ∧
      census (Function.update s.pc t p) Pc.popping + old.popping.toNat =
        census s.pc Pc.popping + p.popping.toNat ∧
      census (Function.update s.pc t p) Pc.failing + old.failing.toNat =
        census s.pc Pc.failing + p.failing.toNat := by
  subst hp
  exact ⟨census_update .., census_update .., census_update .., census_update ..⟩

/-- A step that adds `d` to the counter and leaves the ring alone. -/
theorem Counts.count (h : Counts num s) {old p : Pc α} (hp : s.pc t = old) {d : Int} {a b : Nat}
    {queue : FlatSignalQueue α} {saw : Tid → Bool}
    (capacity : queue.queueCapacity = s.queue.queueCapacity)
    (ring : queue.evQueue = s.queue.evQueue)
    (counter : queue.availableSize = i32 (s.queue.availableSize + d))
    (adds : d + old.refused.toNat + p.failing.toNat = a - b + p.refused.toNat + old.failing.toNat)
    (pushes : a + old.pushing.toNat = p.pushing.toNat)
    (pops : b + old.popping.toNat = p.popping.toNat) :
    Counts num ⟨queue, Function.update s.pc t p, s.admitted + a, s.taken + b, s.removed, saw⟩ := by
  obtain ⟨xs, holds, count⟩ := h.ring
  obtain ⟨c1, c2, c3, c4⟩ := census_goto hp p
  have pending := h.taken
  refine ⟨capacity.trans h.capacity, ring ▸ h.room, ?_, ?_, xs, ring ▸ holds, ?_⟩
  · rw [counter, h.counter, i32_add]
    simp only [shown]
    congr 1
    omega
  · simp only
    omega
  · simp only
    omega

/-- A step that puts an element into the ring or takes `c` elements out of it. -/
theorem Counts.deal (h : Counts num s) {old p : Pc α} (hp : s.pc t = old) {q : BoundedQueue α}
    {xs : List α} {n c : Nat} (capacity : q.capacity = s.queue.evQueue.capacity)
    (holds : q.Holds xs) (count : s.admitted = s.removed + n + census s.pc Pc.pushing)
    (moved : n + old.pushing.toNat = c + xs.length + p.pushing.toNat)
    (pops : c + p.popping.toNat = old.popping.toNat)
    (calm : p.refused = old.refused ∧ p.failing = old.failing) :
    Counts num { s.goto t p with
      queue := { s.queue with evQueue := q }
      removed := s.removed + c } := by
  obtain ⟨c1, c2, c3, c4⟩ := census_goto hp p
  have pending := h.taken
  rw [calm.1] at c2
  rw [calm.2] at c4
  refine ⟨h.capacity, capacity ▸ h.room, ?_, ?_, xs, holds, ?_⟩
  · simp only [h.counter, shown, goto]
    congr 1
    omega
  · simp only [goto]
    omega
  · simp only [goto]
    omega

/-- A call starts. -/
theorem Counts.enter (h : Counts num s) {p : Pc α} (hs : s.enter t p = some s')
    (fresh : p.pushing = false ∧ p.refused = false ∧ p.popping = false ∧ p.failing = false) :
    Counts num s' := by
  obtain ⟨f1, f2, f3, f4⟩ := fresh
  have old : (s.pc t).pushing = false ∧ (s.pc t).refused = false ∧ (s.pc t).popping = false ∧
      (s.pc t).failing = false ∧
      s' = { s.goto t p with sawFull := Function.update s.sawFull t false } := by
    unfold Shared.enter at hs
    split at hs <;> simp_all [Pc.pushing, Pc.refused, Pc.popping, Pc.failing]
  obtain ⟨o1, o2, o3, o4, rfl⟩ := old
  refine h.count (a := 0) (b := 0) (d := 0) rfl rfl rfl ?_ ?_ ?_ ?_
  · rw [goto, h.counter, i32_add, Int.add_zero]
  · rw [o2, o4, f2, f4]
    rfl
  · rw [o1, f1]
    rfl
  · rw [o3, f3]
    rfl

/-- One step of a thread. -/
theorem Counts.advance (h : Counts num s) (hs : s.advance blank t = some s') : Counts num s' := by
  obtain ⟨xs, holds, count⟩ := h.ring
  cases hp : s.pc t with
  | idle | pushed | popped => simp [Shared.advance, hp] at hs
  | pushAdd v =>
    simp only [Shared.advance, hp] at hs
    split_ifs at hs <;> cases hs
    · exact h.count hp (d := 1) (a := 1) (b := 0) rfl rfl rfl rfl rfl rfl
    · exact h.count hp (d := 1) (a := 0) (b := 0) rfl rfl rfl rfl rfl rfl
  | pushRing v =>
    simp only [Shared.advance, hp] at hs
    by_cases space : xs.length < s.queue.evQueue.capacity
    · obtain ⟨q, deal, holds', cap⟩ := holds.tryDeal_push v space
      simp only [deal] at hs
      cases hs
      refine h.deal hp cap holds' count (c := 0) ?_ rfl ⟨rfl, rfl⟩
      simp [Pc.pushing]
    · simp only [holds.tryDeal_push_full v space] at hs
      cases hs
      exact h
  | pushSub =>
    simp only [Shared.advance, hp] at hs
    cases hs
    exact h.count hp (d := -1) (a := 0) (b := 0) rfl rfl rfl rfl rfl rfl
  | popSub =>
    simp only [Shared.advance, hp] at hs
    split_ifs at hs <;> cases hs
    · exact h.count hp (d := -1) (a := 0) (b := 0) rfl rfl rfl rfl rfl rfl
    · exact h.count hp (d := -1) (a := 0) (b := 1) rfl rfl rfl rfl rfl rfl
  | popRing =>
    simp only [Shared.advance, hp] at hs
    cases xs with
    | nil =>
      simp only [holds.tryDealN_pop_empty] at hs
      cases hs
      exact h
    | cons x xs =>
      obtain ⟨q, deal, holds', cap⟩ := holds.tryDealN_pop fun _ => blank
      simp only [deal] at hs
      cases hs
      refine h.deal hp cap holds' count (c := 1) ?_ rfl ⟨rfl, rfl⟩
      simp [Pc.pushing, Nat.add_comm]
  | popAdd =>
    simp only [Shared.advance, hp] at hs
    cases hs
    exact h.count hp (d := 1) (a := 0) (b := 0) rfl rfl rfl rfl rfl rfl

omit [Fintype Tid] in
/-- A thread starts a call, or goes on with the one it is in. -/
theorem step_cases {i : Tid × SharedMove α} (hs : s.step blank i = some s') :
    (∃ p r, (p = .popSub ∨ ∃ v, p = .pushAdd v) ∧ s.enter i.1 p = some r ∧ s' = r.note) ∨
      ∃ r, s.advance blank i.1 = some r ∧ s' = r.note := by
  obtain ⟨t, move⟩ := i
  cases move with
  | tryPush v =>
    obtain ⟨r, hr, rfl⟩ := Option.map_eq_some_iff.mp hs
    exact Or.inl ⟨_, r, Or.inr ⟨v, rfl⟩, hr, rfl⟩
  | tryPop =>
    obtain ⟨r, hr, rfl⟩ := Option.map_eq_some_iff.mp hs
    exact Or.inl ⟨_, r, Or.inl rfl, hr, rfl⟩
  | step =>
    obtain ⟨r, hr, rfl⟩ := Option.map_eq_some_iff.mp hs
    exact Or.inr ⟨r, hr, rfl⟩

theorem Counts.step (h : Counts num s) {i : Tid × SharedMove α} (hs : s.step blank i = some s') :
    Counts num s' := by
  obtain ⟨p, r, fresh, hr, rfl⟩ | ⟨r, hr, rfl⟩ := step_cases hs
  · refine (h.enter hr ?_).note
    obtain rfl | ⟨v, rfl⟩ := fresh <;> exact ⟨rfl, rfl, rfl, rfl⟩
  · exact (h.advance hr).note

theorem counts_of_reach {ok : Shared Tid α → Tid × SharedMove α → Shared Tid α → Prop}
    (h : (sharedMachine Tid blank num).Reach ok s) : Counts num s := by
  induction h with
  | start h => exact h ▸ (counts_start blank num).note
  | step _ move _ ih => exact ih.step move

/-! ## Refused calls -/

/-- A `TryPush` that has not met a full queue looks at the counter while no more refused calls of
`TryPush` than failing calls of `TryPop` are in flight, and these outnumber them by no more than
the elements that are left; the counter has not wrapped. -/
def undisturbed (s : Shared Tid α) (i : Tid × SharedMove α) (_ : Shared Tid α) : Prop :=
  (s.pc i.1).adding = true → s.sawFull i.1 = false →
    census s.pc Pc.refused ≤ census s.pc Pc.failing ∧
      s.taken + census s.pc Pc.failing ≤ s.admitted + census s.pc Pc.refused ∧
        s.admitted < s.taken + 2147483648

instance (s : Shared Tid α) (i : Tid × SharedMove α) (s' : Shared Tid α) :
    Decidable (undisturbed s i s') := inferInstanceAs (Decidable (_ → _ → _ ∧ _ ∧ _))

omit [Fintype Tid] in
/-- A step refuses a call only if the counter shows no room. -/
theorem advance_rejected (hs : s.advance blank t = some s') :
    s'.sawFull = s.sawFull ∧ (∀ u, u ≠ t → s'.pc u = s.pc u) ∧
      ((s'.pc t).rejected = true → (s.pc t).rejected = true ∨
        (s.pc t).adding = true ∧ ¬s.queue.roomSeen) := by
  unfold Shared.advance at hs
  split at hs <;> (try split at hs) <;> cases hs <;>
    simp_all [goto, Pc.rejected, Pc.adding]

/-- Whoever is refused has seen the queue full, and a full queue is seen by all. -/
structure Caused (s : Shared Tid α) : Prop where
  full : s.Full → ∀ t, s.sawFull t = true
  rejected : ∀ t, (s.pc t).rejected = true → s.sawFull t = true

omit [Fintype Tid] [DecidableEq Tid] in
theorem note_sawFull {u : Tid} (h : s.sawFull u = true ∨ s.Full) : s.note.sawFull u = true := by
  simpa [note] using h

omit [Fintype Tid] [DecidableEq Tid] in
/-- What is seen in a state makes a full queue seen. -/
theorem Caused.note (h : ∀ t, (s.pc t).rejected = true → s.sawFull t = true ∨ s.Full) :
    Caused s.note :=
  ⟨fun full _ => note_sawFull (Or.inr full), fun t rej => note_sawFull (h t rej)⟩

omit [DecidableEq Tid] in
/-- Room that the counter shows. -/
theorem Counts.roomSeen (h : Counts num s) (lo : 0 ≤ s.shown) (hi : s.shown < s.queue.queueCapacity)
    (small : s.shown < 2147483648) : s.queue.roomSeen := by
  rw [FlatSignalQueue.roomSeen, h.counter, i32_of_lt (by omega) small]
  unfold sizeT
  omega

omit [Fintype Tid] in
theorem Caused.enter (h : Caused s) {p : Pc α} (hs : s.enter t p = some s')
    (fresh : p.rejected = false) : Caused s'.note := by
  have eq : s' = { s.goto t p with sawFull := Function.update s.sawFull t false } := by
    unfold Shared.enter at hs
    split at hs <;> simp_all
  subst eq
  refine Caused.note fun u rej => ?_
  by_cases hu : u = t
  · subst hu
    simp [goto, fresh] at rej
  · simp only [goto, Function.update_of_ne hu] at rej ⊢
    exact Or.inl (h.rejected u rej)

theorem Caused.advance (h : Caused s) (counts : Counts num s) (hs : s.advance blank t = some s')
    (ok : (s.pc t).adding = true → s.sawFull t = false →
      census s.pc Pc.refused ≤ census s.pc Pc.failing ∧
        s.taken + census s.pc Pc.failing ≤ s.admitted + census s.pc Pc.refused ∧
          s.admitted < s.taken + 2147483648) :
    Caused s'.note := by
  obtain ⟨saw, others, mine⟩ := advance_rejected hs
  refine Caused.note fun u rej => ?_
  rw [saw]
  by_cases hu : u = t
  · subst hu
    obtain old | ⟨adding, unseen⟩ := mine rej
    · exact Or.inl (h.rejected u old)
    · refine Or.inl (Bool.of_not_eq_false fun fresh => unseen ?_)
      -- the failing calls in flight feign no element, so that the counter shows the room
      obtain ⟨unfeigned, left, small⟩ := ok adding fresh
      have space : s.admitted < s.queue.queueCapacity + s.removed := by
        by_contra full
        rw [h.full (not_lt.mp full) u] at fresh
        cases fresh
      have pending := counts.taken
      refine counts.roomSeen ?_ ?_ ?_ <;> rw [shown] <;> omega
  · rw [others u hu] at rej
    exact Or.inl (h.rejected u rej)

/-- In every run in which the failing calls in flight do not disturb a `TryPush` that has not met
a full queue, a refused `TryPush` has seen the queue full. -/
theorem sawFull_of_reach (h : (sharedMachine Tid blank num).Reach undisturbed s) :
    ∀ t, s.pc t = .pushed false → s.sawFull t = true := by
  have caused : Caused s := by
    refine h.inv_reach (P := Caused) ?_ fun s i s' reach ih move ok => ?_
    · rintro s rfl
      exact Caused.note fun t rej => absurd rej (by simp [Pc.rejected])
    · obtain ⟨p, r, fresh, hr, rfl⟩ | ⟨r, hr, rfl⟩ := step_cases move
      · refine ih.enter hr ?_
        obtain rfl | ⟨v, rfl⟩ := fresh <;> rfl
      · exact ih.advance (counts_of_reach reach) hr ok
  exact fun t ht => caused.rejected t (by rw [ht]; rfl)

/-- Four threads. -/
inductive Caller
  | a | b | c | d
  deriving DecidableEq

instance : Fintype Caller := ⟨{.a, .b, .c, .d}, fun t => by cases t <;> decide⟩

/-- A queue of capacity 1 is filled, and two calls of `TryPush` start. The first one is refused;
then an element leaves the ring, and the second one looks at the counter before the first one
has restored it. -/
def crowd : List (Caller × SharedMove Nat) :=
  [(.a, .tryPush 7), (.a, .step), (.a, .step), (.b, .tryPush 8), (.c, .tryPush 9), (.d, .tryPop),
    (.b, .step), (.d, .step), (.d, .step), (.c, .step), (.b, .step), (.c, .step)]

theorem sawFull_of_reach_crowd :
    ∃ s, (sharedMachine Caller 0 1).run (note { queue := initialized 0 1 }) crowd = some s ∧
      s.pc .c = .pushed false ∧ s.sawFull .c = true := by
  have along : (sharedMachine Caller 0 1).Along undisturbed (note { queue := initialized 0 1 })
      crowd := by decide +kernel
  obtain ⟨s, run, reach⟩ := Machine.Reach.of_along (.start rfl) along
  have seen : ((sharedMachine Caller 0 1).run (note { queue := initialized 0 1 }) crowd).any
      (fun s => match s.pc .c with | .pushed false => true | _ => false) = true := by
    decide +kernel
  rw [run, Option.any_some] at seen
  have refused : s.pc .c = .pushed false := by
    revert seen
    cases s.pc .c with
    | pushed r => cases r <;> simp
    | _ => simp
  exact ⟨s, run, refused, sawFull_of_reach reach .c refused⟩

/-- A `TryPop` on an empty queue has decremented the counter when a `TryPush` looks at it. -/
def masked : List (Caller × SharedMove Nat) :=
  [(.a, .tryPop), (.a, .step), (.b, .tryPush 8), (.b, .step), (.b, .step)]

/-- The `TryPush` is refused, and the queue has been empty all the time. -/
theorem tryPush_refused_empty :
    ∃ s, (sharedMachine Caller 0 1).Reach Machine.free s ∧
      s.pc .b = .pushed false ∧ s.sawFull .b = false := by
  have seen : ((sharedMachine Caller 0 1).run (note { queue := initialized 0 1 }) masked).any
      (fun s => match s.pc .b with | .pushed false => !s.sawFull .b | _ => false) = true := by
    decide +kernel
  obtain ⟨s, run, seen⟩ := (Option.any_eq_true ..).mp seen
  refine ⟨s, Machine.Reach.of_run (.start rfl) run, ?_⟩
  revert seen
  cases s.pc .b with
  | pushed r => cases r <;> simp
  | _ => simp

/-! ## Admitted calls -/

/-- A `TryPush` that looks at the counter of a queue whose places are all taken does so while at
least as many calls of `TryPush` as of `TryPop` have failed and not restored the counter; a
`TryPop` that looks at it when no admitted element is left, while at most as many have. The
counter has not gone round. -/
def steady (s : Shared Tid α) (i : Tid × SharedMove α) (_ : Shared Tid α) : Prop :=
  ((s.pc i.1).adding = true → s.taken + s.queue.queueCapacity ≤ s.admitted →
    census s.pc Pc.failing ≤ census s.pc Pc.refused ∧
      s.admitted + census s.pc Pc.refused < s.taken + census s.pc Pc.failing + 4294967296) ∧
  ((s.pc i.1).subtracting = true → s.admitted ≤ s.taken →
    census s.pc Pc.refused ≤ census s.pc Pc.failing ∧
      census s.pc Pc.failing ≤ census s.pc Pc.refused + 2147483648)

instance (s : Shared Tid α) (i : Tid × SharedMove α) (s' : Shared Tid α) :
    Decidable (steady s i s') := inferInstanceAs (Decidable ((_ → _ → _ ∧ _) ∧ (_ → _ → _ ∧ _)))

omit [Fintype Tid] in
/-- What a step does to the numbers of admitted calls. -/
theorem advance_admitted (hs : s.advance blank t = some s') :
    s'.queue.queueCapacity = s.queue.queueCapacity ∧
      (s'.admitted = s.admitted ∧ s'.taken = s.taken ∨
        (s.pc t).adding = true ∧ s.queue.roomSeen ∧ s'.admitted = s.admitted + 1 ∧
          s'.taken = s.taken ∨
        (s.pc t).subtracting = true ∧ 1 ≤ s.queue.availableSize ∧ s'.admitted = s.admitted ∧
          s'.taken = s.taken + 1) := by
  unfold Shared.advance at hs
  split at hs <;> (try split at hs) <;> cases hs <;>
    simp_all [goto, Pc.adding, Pc.subtracting]

omit [Fintype Tid] in
theorem enter_admitted {p : Pc α} (hs : s.enter t p = some s') :
    s'.queue = s.queue ∧ s'.admitted = s.admitted ∧ s'.taken = s.taken := by
  unfold Shared.enter at hs
  split at hs <;> cases hs <;> exact ⟨rfl, rfl, rfl⟩

/-- A `TryPop` that passes its check has an element to take. -/
theorem advance_taken (le : s.taken ≤ s.admitted) (counts : Counts num s)
    {i : Tid × SharedMove α} {r : Shared Tid α} (ok : steady s i r)
    (hs : s.advance blank i.1 = some s') : s'.taken ≤ s'.admitted := by
  obtain ⟨-, ⟨adm, tak⟩ | ⟨-, -, adm, tak⟩ | ⟨here, seen, adm, tak⟩⟩ := advance_admitted hs
  · omega
  · omega
  · by_cases left : s.taken < s.admitted
    · omega
    · obtain ⟨some, small⟩ := ok.2 here (by omega)
      have counter := counts.counter
      rw [shown, i32_of_lt (by omega) (by omega)] at counter
      omega

omit [DecidableEq Tid] in
/-- A counter that has not gone round does not show room in a queue without any. -/
theorem Counts.not_roomSeen (h : Counts num s) (noRoom : s.queue.queueCapacity ≤ s.shown)
    (small : s.shown < 4294967296) : ¬s.queue.roomSeen := by
  rw [FlatSignalQueue.roomSeen, h.counter]
  unfold sizeT i32
  omega

/-- An admitted `TryPush` finds a place. -/
theorem advance_admits (fits : s.admitted ≤ s.taken + s.queue.queueCapacity)
    (counts : Counts num s) {i : Tid × SharedMove α} {r : Shared Tid α} (ok : steady s i r)
    (hs : s.advance blank i.1 = some s') :
    s'.admitted ≤ s'.taken + s'.queue.queueCapacity := by
  obtain ⟨cap, ⟨adm, tak⟩ | ⟨here, seen, adm, tak⟩ | ⟨-, -, adm, tak⟩⟩ := advance_admitted hs
  · omega
  · by_cases space : s.admitted < s.taken + s.queue.queueCapacity
    · omega
    · obtain ⟨hidden, small⟩ := ok.1 here (by omega)
      refine absurd seen (counts.not_roomSeen ?_ ?_) <;> rw [shown] <;> omega
  · omega

/-- In every run in which the failing calls in flight hide no element from a call that looks for
a place and feign none for a call that looks for an element, the admitted elements fit into the
queue, and an admitted `TryPush` finds the ring full only while an admitted `TryPop` is going to
take an element out of it. -/
theorem bounded_of_reach (h : (sharedMachine Tid blank num).Reach steady s) :
    s.taken ≤ s.admitted ∧ s.admitted ≤ s.taken + s.queue.queueCapacity ∧
      ∀ t v, s.pc t = .pushRing v → s.queue.evQueue.tryDeal .prod v = none →
        ∃ u, s.pc u = .popRing := by
  have bounded : s.taken ≤ s.admitted ∧ s.admitted ≤ s.taken + s.queue.queueCapacity := by
    refine h.inv_reach
      (P := fun s => s.taken ≤ s.admitted ∧ s.admitted ≤ s.taken + s.queue.queueCapacity) ?_
      fun s i s' reach ih move ok => ?_
    · rintro s rfl
      exact ⟨Nat.zero_le _, Nat.zero_le _⟩
    · obtain ⟨le, fits⟩ := ih
      obtain ⟨p, r, -, hr, rfl⟩ | ⟨r, hr, rfl⟩ := step_cases move
      · obtain ⟨e1, e2, e3⟩ := enter_admitted hr
        simpa only [note_admitted, note_taken, note_queue, e1, e2, e3] using And.intro le fits
      · have counts := counts_of_reach reach
        have taken : r.taken ≤ r.admitted := advance_taken le counts ok hr
        have admits : r.admitted ≤ r.taken + r.queue.queueCapacity :=
          advance_admits fits counts ok hr
        exact ⟨taken, admits⟩
  refine ⟨bounded.1, bounded.2, fun t v ht full => ?_⟩
  have counts := counts_of_reach h
  obtain ⟨xs, holds, count⟩ := counts.ring
  have ring : ¬xs.length < s.queue.evQueue.capacity := by
    intro space
    obtain ⟨q, deal, -⟩ := holds.tryDeal_push v space
    rw [full] at deal
    cases deal
  have me : 0 < census s.pc Pc.pushing := census_pos_iff.mpr ⟨t, by rw [ht]; rfl⟩
  have other : 0 < census s.pc Pc.popping := by
    have pending := counts.taken
    have cap := counts.capacity
    have room := counts.room
    have fits := bounded.2
    omega
  obtain ⟨u, hu⟩ := census_pos_iff.mp other
  refine ⟨u, ?_⟩
  cases hp : s.pc u <;> simp_all [Pc.popping]

/-- A failing `TryPop` and a refused `TryPush` are in flight together when a third call is
admitted; the `TryPop` restores the counter first. -/
def fillUp : List (Caller × SharedMove Nat) :=
  [(.a, .tryPop), (.a, .step), (.b, .tryPush 7), (.b, .step), (.c, .tryPush 8), (.c, .step),
    (.a, .step), (.d, .tryPush 9), (.d, .step), (.b, .step)]

/-- One element fills the queue, and the last call is refused. -/
theorem bounded_of_reach_fillUp :
    ∃ s, (sharedMachine Caller 0 1).run (note { queue := initialized 0 1 }) fillUp = some s ∧
      s.admitted = 1 ∧ s.taken = 0 ∧ (s.pc .d).refused = true ∧
      s.admitted ≤ s.taken + s.queue.queueCapacity := by
  have along : (sharedMachine Caller 0 1).Along steady (note { queue := initialized 0 1 })
      fillUp := by decide +kernel
  have seen : ((sharedMachine Caller 0 1).run (note { queue := initialized 0 1 }) fillUp).map
      (fun s => (s.admitted, s.taken, (s.pc .d).refused)) = some (1, 0, true) := by decide +kernel
  obtain ⟨s, run, reach, seen⟩ := Machine.Reach.of_along_seen (.start rfl) along seen
  obtain ⟨adm, rest⟩ := Prod.mk.inj seen
  obtain ⟨tak, refused⟩ := Prod.mk.inj rest
  exact ⟨s, run, adm, tak, refused, (bounded_of_reach reach).2.1⟩

/-- A failing `TryPop` and a refused `TryPush` are in flight together; the `TryPush` restores
the counter first, and two elements are admitted. -/
def overfill : List (Caller × SharedMove Nat) :=
  [(.a, .tryPop), (.a, .step), (.b, .tryPush 7), (.b, .step), (.c, .tryPush 8), (.c, .step),
    (.b, .step), (.d, .tryPush 9), (.d, .step)]

/-- A queue of capacity 1 has admitted two elements. -/
theorem admitted_overfill :
    ∃ s, (sharedMachine Caller 0 1).Reach Machine.free s ∧
      ¬s.admitted ≤ s.taken + s.queue.queueCapacity := by
  have seen : ((sharedMachine Caller 0 1).run (note { queue := initialized 0 1 }) overfill).any
      (fun s => decide (¬s.admitted ≤ s.taken + s.queue.queueCapacity)) = true := by
    decide +kernel
  obtain ⟨s, run, seen⟩ := (Option.any_eq_true ..).mp seen
  exact ⟨s, Machine.Reach.of_run (.start rfl) run, of_decide_eq_true seen⟩

end Shared

end Fuxi.Base.FlatSignalQueue
