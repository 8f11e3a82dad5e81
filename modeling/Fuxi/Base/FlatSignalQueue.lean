import Fuxi.Base.BoundedQueue.Sequential
import Fuxi.Lib.Machine

/-!
# `FlatSignalQueue`

A bounded queue of events on top of `ConcurrentBoundedQueue`. `TryPush` and `TryPop`
decide by the counter `available_size_`, which they alone keep up to date, and then
retry the non-blocking operation of the ring until it succeeds. `Push` and `Pop` use
the ring and leave the counter alone.
-/

namespace Fuxi.Base

open Lib

/-- `FlatSignalQueue<T>`; `available_size_` is a signed 32-bit number. -/
structure FlatSignalQueue (α : Type*) where
  queueCapacity : Nat
  availableSize : Int
  evQueue : BoundedQueue α

namespace FlatSignalQueue

variable {α : Type*}

/-- `Initialize` on a queue that is not initialised. -/
def initialized (zero : α) (num : Nat) : FlatSignalQueue α where
  queueCapacity := num
  availableSize := 0
  evQueue := BoundedQueue.reserveAndClear zero num

/-- A loop that tries `f` until it succeeds; `none` when the fuel does not suffice. -/
def retry {σ ρ : Type*} (f : σ → σ ⊕ ρ) : Nat → σ → Option ρ
  | 0, _ => none
  | fuel + 1, s =>
    match f s with
    | .inl s' => retry f fuel s'
    | .inr r => some r

/-- The test `current_size >= queue_capacity_` of `TryPush` fails; the signed size is
compared as a `size_t`. -/
def roomSeen (s : FlatSignalQueue α) : Prop := sizeT s.availableSize < s.queueCapacity

instance (s : FlatSignalQueue α) : Decidable s.roomSeen :=
  inferInstanceAs (Decidable (_ < _))

/-- `TryPush`. -/
def tryPush (s : FlatSignalQueue α) (v : α) (fuel : Nat) : Option (FlatSignalQueue α × Bool) :=
  let added := i32 (s.availableSize + 1)
  if s.roomSeen then
    (retry (fun q : BoundedQueue α =>
        match q.tryDeal .prod v with
        | none => .inl q
        | some (q', _) => .inr q') fuel s.evQueue).map
      fun q => ({ s with availableSize := added, evQueue := q }, true)
  else some ({ s with availableSize := i32 (added - 1) }, false)

/-- `Push`, or `none` if it waits. -/
def push (s : FlatSignalQueue α) (v : α) : Option (FlatSignalQueue α) :=
  (s.evQueue.pushOrPop .prod v).map fun r => { s with evQueue := r.1 }

/-- `TryPop`; `blank` is the value that the caller passes. -/
def tryPop (s : FlatSignalQueue α) (blank : α) (fuel : Nat) :
    Option (FlatSignalQueue α × Option α) :=
  let taken := i32 (s.availableSize - 1)
  if s.availableSize < 1 then some ({ s with availableSize := i32 (taken + 1) }, none)
  else
    (retry (fun q : BoundedQueue α =>
        match q.tryDealN .cons 1 fun _ => blank with
        | (q', []) => .inl q'
        | (q', v :: _) => .inr (q', v)) fuel s.evQueue).map
      fun r => ({ s with availableSize := taken, evQueue := r.1 }, some r.2)

/-- `Pop`, or `none` if it waits. -/
def pop (s : FlatSignalQueue α) (blank : α) : Option (FlatSignalQueue α × α) :=
  (s.evQueue.pushOrPop .cons blank).map fun r => ({ s with evQueue := r.1 }, r.2)

/-! ## Runs -/

/-- The calls; the fuel of a call bounds its retries. -/
inductive Op (α : Type*)
  | tryPush (v : α) (fuel : Nat)
  | push (v : α)
  | tryPop (fuel : Nat)
  | pop

/-- A queue with what it has accepted and handed out so far and with the number of its
blocking calls. -/
structure Run (α : Type*) where
  queue : FlatSignalQueue α
  accepted : List α := []
  popped : List α := []
  pushes : Nat := 0
  pops : Nat := 0

/-- A call that returns; blocking calls are made when they do not wait. -/
def Run.step (blank : α) (s : Run α) : Op α → Option (Run α)
  | .tryPush v fuel =>
    (s.queue.tryPush v fuel).map fun r =>
      { s with queue := r.1, accepted := if r.2 then s.accepted ++ [v] else s.accepted }
  | .push v =>
    (s.queue.push v).map fun q =>
      { s with queue := q, accepted := s.accepted ++ [v], pushes := s.pushes + 1 }
  | .tryPop fuel =>
    (s.queue.tryPop blank fuel).map fun r =>
      { s with queue := r.1, popped := s.popped ++ r.2.toList }
  | .pop =>
    (s.queue.pop blank).map fun r =>
      { s with queue := r.1, popped := s.popped ++ [r.2], pops := s.pops + 1 }

/-- One thread uses a queue of capacity `num`. -/
def machine (blank : α) (num : Nat) : Machine (Run α) (Op α) where
  start s := s = { queue := initialized blank num }
  step := Run.step blank

/-- The elements in the queue. -/
def Run.elements (s : Run α) : List α := s.accepted.drop s.popped.length

/-- `TryPush` returns, and it returns true exactly if fewer than `num` elements are in
the queue. -/
def TryPushExact (num : Nat) (s : Run α) (v : α) : Prop :=
  ∃ fuel r, s.queue.tryPush v fuel = some r ∧ (r.2 = true ↔ s.elements.length < num)

/-- `TryPop` returns, and it returns true exactly if the queue is not empty. -/
def TryPopExact (blank : α) (s : Run α) : Prop :=
  ∃ fuel r, s.queue.tryPop blank fuel = some r ∧ (r.2.isSome = true ↔ s.elements ≠ [])

/-- What holds of every run: the ring holds the elements, they leave in the order in
which they came, and the counter has drifted by the blocking calls. -/
structure Tracks (num : Nat) (s : Run α) : Prop where
  capacity : s.queue.queueCapacity = num
  room : num ≤ s.queue.evQueue.capacity
  holds : s.queue.evQueue.Holds s.elements
  order : s.popped <+: s.accepted
  drift : s.queue.availableSize = i32 (s.elements.length - s.pushes + s.pops)

theorem retry_none {σ ρ : Type*} {f : σ → σ ⊕ ρ} {s : σ} (stuck : f s = .inl s) (fuel : Nat) :
    retry f fuel s = none := by
  induction fuel with
  | zero => rfl
  | succ n ih => rw [retry, stuck]; exact ih

theorem retry_some {σ ρ : Type*} {f : σ → σ ⊕ ρ} {s : σ} {r : ρ} (done : f s = .inr r)
    (fuel : Nat) : retry f (fuel + 1) s = some r := by
  rw [retry, done]

section Calls

variable {q : FlatSignalQueue α} {xs : List α}

/-- `TryPush` when the counter shows room and the ring has some. -/
theorem tryPush_room (h : q.evQueue.Holds xs) (v : α) (seen : q.roomSeen)
    (room : xs.length < q.evQueue.capacity) :
    ∃ ring, ring.Holds (xs ++ [v]) ∧ ring.capacity = q.evQueue.capacity ∧ ∀ fuel,
      q.tryPush v (fuel + 1) =
        some ({ q with availableSize := i32 (q.availableSize + 1), evQueue := ring }, true) := by
  obtain ⟨ring, deal, holds, cap⟩ := h.tryDeal_push v room
  refine ⟨ring, holds, cap, fun fuel => ?_⟩
  rw [tryPush, if_pos seen, retry_some (r := ring) (by simp only [deal])]
  rfl

/-- `TryPush` never returns when the counter shows room in a ring that is full. -/
theorem tryPush_stuck (h : q.evQueue.Holds xs) (v : α) (seen : q.roomSeen)
    (full : ¬xs.length < q.evQueue.capacity) (fuel : Nat) : q.tryPush v fuel = none := by
  rw [tryPush, if_pos seen, retry_none (by simp only [h.tryDeal_push_full v full])]
  rfl

theorem tryPush_refused (v : α) (seen : ¬q.roomSeen) (fuel : Nat) :
    q.tryPush v fuel =
      some ({ q with availableSize := i32 (i32 (q.availableSize + 1) - 1) }, false) := by
  rw [tryPush, if_neg seen]

/-- `TryPop` when the counter shows an element and the ring has one. -/
theorem tryPop_some {x : α} (h : q.evQueue.Holds (x :: xs)) (blank : α)
    (seen : ¬q.availableSize < 1) :
    ∃ ring, ring.Holds xs ∧ ring.capacity = q.evQueue.capacity ∧ ∀ fuel,
      q.tryPop blank (fuel + 1) =
        some ({ q with availableSize := i32 (q.availableSize - 1), evQueue := ring }, some x) := by
  obtain ⟨ring, deal, holds, cap⟩ := h.tryDealN_pop fun _ => blank
  refine ⟨ring, holds, cap, fun fuel => ?_⟩
  rw [tryPop, if_neg seen, retry_some (r := (ring, x)) (by simp only [deal])]
  rfl

/-- `TryPop` never returns when the counter shows an element in an empty ring. -/
theorem tryPop_stuck (h : q.evQueue.Holds []) (blank : α) (seen : ¬q.availableSize < 1)
    (fuel : Nat) : q.tryPop blank fuel = none := by
  rw [tryPop, if_neg seen, retry_none (by simp only [h.tryDealN_pop_empty])]
  rfl

theorem tryPop_refused (blank : α) (seen : q.availableSize < 1) (fuel : Nat) :
    q.tryPop blank fuel =
      some ({ q with availableSize := i32 (i32 (q.availableSize - 1) + 1) }, none) := by
  rw [tryPop, if_pos seen]

end Calls

theorem Run.elements_of_eq {s : Run α} {xs : List α} (h : s.accepted = s.popped ++ xs) :
    s.elements = xs := by
  rw [elements, h, List.drop_left]

namespace Tracks

variable {num : Nat} {blank : α} {s : Run α}

theorem accepted_eq (h : Tracks num s) : s.accepted = s.popped ++ s.elements :=
  (List.prefix_iff_eq_append.mp h.order).symm

/-- The elements of a state whose history is known. -/
theorem of_eq {l : List α} (eq : s.accepted = s.popped ++ l)
    (capacity : s.queue.queueCapacity = num) (room : num ≤ s.queue.evQueue.capacity)
    (holds : s.queue.evQueue.Holds l)
    (drift : s.queue.availableSize = i32 (l.length - s.pushes + s.pops)) : Tracks num s := by
  rw [← Run.elements_of_eq eq] at holds drift
  exact ⟨capacity, room, holds, ⟨l, eq.symm⟩, drift⟩

theorem start (blank : α) (num : Nat) :
    Tracks num ({ queue := initialized blank num } : Run α) :=
  of_eq (l := []) rfl rfl (le_bitCeil num) (BoundedQueue.reserveAndClear_holds blank num)
    (by simp [initialized, i32])

/-- Every call that returns keeps track of the elements. -/
theorem step (h : Tracks num s) {op : Op α} {s' : Run α} (hs : s.step blank op = some s') :
    Tracks num s' := by
  have eq := h.accepted_eq
  have drift := h.drift
  cases op with
  | tryPush v fuel =>
    obtain ⟨r, hr, rfl⟩ := Option.map_eq_some_iff.mp hs
    by_cases seen : s.queue.roomSeen
    · by_cases room : s.elements.length < s.queue.evQueue.capacity
      · obtain ⟨ring, holds, cap, ret⟩ := tryPush_room h.holds v seen room
        cases fuel with
        | zero => simp [tryPush, seen, retry] at hr
        | succ fuel =>
          cases hr.symm.trans (ret fuel)
          refine of_eq (l := s.elements ++ [v]) ?_ h.capacity (cap ▸ h.room) holds ?_
          · simp only [if_true]; rw [eq, List.append_assoc]
          · simp only [drift, List.length_append, List.length_singleton]
            unfold i32; push_cast; omega
      · rw [tryPush_stuck h.holds v seen room] at hr; cases hr
    · cases hr.symm.trans (tryPush_refused v seen fuel)
      refine of_eq (l := s.elements) eq h.capacity h.room h.holds ?_
      simp only [drift]
      unfold i32; omega
  | push v =>
    obtain ⟨q, hq, rfl⟩ := Option.map_eq_some_iff.mp hs
    obtain ⟨r, hr, rfl⟩ := Option.map_eq_some_iff.mp hq
    rw [BoundedQueue.pushOrPop_eq] at hr
    by_cases room : s.elements.length < s.queue.evQueue.capacity
    · obtain ⟨ring, deal, holds, cap⟩ := h.holds.tryDeal_push v room
      cases hr.symm.trans deal
      refine of_eq (l := s.elements ++ [v]) ?_ h.capacity (cap ▸ h.room) holds ?_
      · simp only; rw [eq, List.append_assoc]
      · simp only [drift, List.length_append, List.length_singleton]
        unfold i32; push_cast; omega
    · rw [h.holds.tryDeal_push_full v room] at hr; cases hr
  | tryPop fuel =>
    obtain ⟨r, hr, rfl⟩ := Option.map_eq_some_iff.mp hs
    by_cases seen : s.queue.availableSize < 1
    · cases hr.symm.trans (tryPop_refused blank seen fuel)
      refine of_eq (l := s.elements) (by simpa using eq) h.capacity h.room h.holds ?_
      simp only [drift]
      unfold i32; omega
    · have holds := h.holds
      cases hx : s.elements with
      | nil => rw [hx] at holds; rw [tryPop_stuck holds blank seen] at hr; cases hr
      | cons x xs =>
        rw [hx] at holds eq drift
        obtain ⟨ring, holds, cap, ret⟩ := tryPop_some holds blank seen
        cases fuel with
        | zero => simp [tryPop, seen, retry] at hr
        | succ fuel =>
          cases hr.symm.trans (ret fuel)
          refine of_eq (l := xs) (by simpa using eq) h.capacity (cap ▸ h.room) holds ?_
          simp only [drift, List.length_cons]
          unfold i32; push_cast; omega
  | pop =>
    obtain ⟨r, hr, rfl⟩ := Option.map_eq_some_iff.mp hs
    obtain ⟨d, hd, rfl⟩ := Option.map_eq_some_iff.mp hr
    rw [BoundedQueue.pushOrPop_eq] at hd
    have holds := h.holds
    cases hx : s.elements with
    | nil => rw [hx] at holds; rw [holds.tryDeal_pop_empty] at hd; cases hd
    | cons x xs =>
      rw [hx] at holds eq drift
      obtain ⟨ring, deal, holds, cap⟩ := holds.tryDeal_pop blank
      cases hd.symm.trans deal
      refine of_eq (l := xs) (by simpa using eq) h.capacity (cap ▸ h.room) holds ?_
      simp only [drift, List.length_cons]
      unfold i32; push_cast; omega

/-- `TryPush` is exact when the counter shows room if and only if there is some. -/
theorem tryPushExact_iff (h : Tracks num s) (v : α) :
    TryPushExact num s v ↔ (s.queue.roomSeen ↔ s.elements.length < num) := by
  have room := h.room
  by_cases seen : s.queue.roomSeen
  · by_cases fits : s.elements.length < s.queue.evQueue.capacity
    · obtain ⟨ring, -, -, ret⟩ := tryPush_room h.holds v seen fits
      constructor
      · rintro ⟨fuel, r, hr, exact⟩
        cases fuel with
        | zero => simp [tryPush, seen, retry] at hr
        | succ fuel =>
          cases hr.symm.trans (ret fuel)
          simpa [seen] using exact
      · intro exact
        exact ⟨1, _, ret 0, by simpa [seen] using exact⟩
    · constructor
      · rintro ⟨fuel, r, hr, -⟩
        rw [tryPush_stuck h.holds v seen fits] at hr; cases hr
      · intro exact
        exact absurd (exact.mp seen) (by omega)
  · constructor
    · rintro ⟨fuel, r, hr, exact⟩
      cases hr.symm.trans (tryPush_refused v seen fuel)
      simpa [seen] using exact
    · intro exact
      exact ⟨0, _, tryPush_refused v seen 0, by simpa [seen] using exact⟩

/-- `TryPop` is exact when the counter shows an element if and only if there is one. -/
theorem tryPopExact_iff (h : Tracks num s) (blank : α) :
    TryPopExact blank s ↔ (1 ≤ s.queue.availableSize ↔ s.elements ≠ []) := by
  have holds := h.holds
  by_cases seen : s.queue.availableSize < 1
  · have low : ¬1 ≤ s.queue.availableSize := by omega
    constructor
    · rintro ⟨fuel, r, hr, exact⟩
      cases hr.symm.trans (tryPop_refused blank seen fuel)
      simpa [low] using exact
    · intro exact
      exact ⟨0, _, tryPop_refused blank seen 0, by simpa [low] using exact⟩
  · have high : 1 ≤ s.queue.availableSize := by omega
    cases hx : s.elements with
    | nil =>
      rw [hx] at holds
      simp only [high, ne_eq, not_true, iff_false]
      rintro ⟨fuel, r, hr, -⟩
      rw [tryPop_stuck holds blank seen] at hr; cases hr
    | cons x xs =>
      rw [hx] at holds
      obtain ⟨ring, -, -, ret⟩ := tryPop_some holds blank seen
      simp only [high, ne_eq, reduceCtorEq, not_false_eq_true, iff_true]
      exact ⟨1, _, ret 0, by simp [hx]⟩

end Tracks

/-- In every run the elements leave in the order in which they were accepted, and
`TryPush` and `TryPop` are exact just where the counter, which the blocking calls let
drift, agrees with the number of elements. -/
theorem exact_iff (blank : α) (num : Nat) {s : Run α}
    (h : (machine blank num).Reach Machine.free s) :
    s.popped <+: s.accepted ∧
      s.queue.availableSize = i32 (s.elements.length - s.pushes + s.pops) ∧
      (∀ v, TryPushExact num s v ↔ (s.queue.roomSeen ↔ s.elements.length < num)) ∧
      (TryPopExact blank s ↔ (1 ≤ s.queue.availableSize ↔ s.elements ≠ [])) := by
  have tracks : Tracks num s := by
    refine h.inv (P := Tracks num) ?_ fun s op s' ih hs _ => ih.step hs
    rintro s rfl
    exact Tracks.start blank num
  exact ⟨tracks.order, tracks.drift, tracks.tryPushExact_iff, tracks.tryPopExact_iff blank⟩

/-- The run `TryPush(7)`, `Pop` on a queue of capacity 1. -/
def driftRun : List (Op Nat) := [.tryPush 7 1, .pop]

/-- The run is admitted, and the counter is exact for `TryPop` but not for `TryPush`. -/
theorem exact_iff_drift : ∃ s, (machine 0 1).run { queue := initialized 0 1 } driftRun = some s ∧
    s.queue.availableSize = 1 ∧ s.elements = [] ∧ s.popped <+: s.accepted := by
  have seen : ((machine 0 1).run { queue := initialized 0 1 } driftRun).map
      (fun s => (s.queue.availableSize, s.elements)) = some (1, []) := by decide +kernel
  obtain ⟨s, run, seen⟩ := Option.map_eq_some_iff.mp seen
  have seen := Prod.mk.inj seen
  exact ⟨s, run, seen.1, seen.2, (exact_iff 0 1 (Machine.Reach.of_run (.start rfl) run)).1⟩

/-- After `TryPush(7)` and `Pop` a queue of capacity 1 is empty, and yet `TryPush`
refuses the next element. -/
theorem tryPush_refuses_empty : ∃ s, (machine 0 1).Reach Machine.free s ∧ s.elements = [] ∧
    (∀ fuel, (s.queue.tryPush 8 fuel).map Prod.snd = some false) ∧ ¬TryPushExact 1 s 8 := by
  have seen : ((machine 0 1).run { queue := initialized 0 1 } driftRun).map
      (fun s => (decide s.queue.roomSeen, s.elements)) = some (false, []) := by decide +kernel
  obtain ⟨s, run, seen⟩ := Option.map_eq_some_iff.mp seen
  obtain ⟨full, empty⟩ := Prod.mk.inj seen
  have full := of_decide_eq_false full
  refine ⟨s, Machine.Reach.of_run (.start rfl) run, empty, fun fuel => ?_, ?_⟩
  · rw [tryPush_refused 8 full]; rfl
  · rintro ⟨fuel, r, hr, exact⟩
    cases hr.symm.trans (tryPush_refused 8 full fuel)
    simp [empty] at exact

end FlatSignalQueue

end Fuxi.Base
