import Mathlib.Order.Lattice
import Fuxi.Lib.SharedFifo

/-!
# A bounded queue with two lines

Whoever puts elements lines them up, and whoever takes some lines up for them. An element gets in
as soon as there is room, and the first of the takers gets the oldest element as soon as there is
one, so both lines are served in the order of arrival. The caller is told later what has got in and
what it has got, and then its call is answered. A call that only tries lines up nowhere if it would
have to wait, and it may give up.
-/

namespace Fuxi.Lib

variable {Tid α : Type*}

/-- The number of elements that a call is about. -/
def QueueOp.size : QueueOp α → Nat
  | .put items => items.length
  | .take n => n

/-- Where a thread is in its call: for how many elements it has lined up, and about how many of
these it has been told. -/
inductive FairStage (α : Type*)
  | idle
  | running (op : QueueOp α) (trying : Bool) (arrived told : Nat)
  | answered (moved : Nat)
  deriving DecidableEq

/-- A thread asks, lines up for some elements, is told that some of its elements are in or gets
some elements, and has its answer. -/
inductive FairMove (α : Type*)
  | ask (op : QueueOp α) (trying : Bool)
  | arrive (n : Nat)
  | entered (n : Nat)
  | received (items : List α)
  | answer
  deriving DecidableEq

/-- The elements that are in, the two lines, what the threads have not been told, and where they
are in their calls. -/
@[ext] structure FairQueue (Tid α : Type*) where
  items : List α := []
  putters : List (Tid × α) := []
  takers : List Tid := []
  entered : Tid → Nat := fun _ => 0
  given : Tid → List α := fun _ => []
  stage : Tid → FairStage α := fun _ => .idle

namespace FairQueue

variable [DecidableEq Tid]

/-- One more element of a thread gets in. -/
def letIn (q : FairQueue Tid α) (t : Tid) : FairQueue Tid α :=
  { q with entered := Function.update q.entered t (q.entered t + 1) }

/-- A thread gets an element. -/
def give (q : FairQueue Tid α) (t : Tid) (x : α) : FairQueue Tid α :=
  { q with given := Function.update q.given t (q.given t ++ [x]) }

/-- An element goes to the first taker, or in, or to the end of the line. -/
def putOne (capacity : Nat) (q : FairQueue Tid α) (t : Tid) (x : α) : FairQueue Tid α :=
  match q.takers with
  | u :: takers => { (q.letIn t).give u x with takers := takers }
  | [] =>
    if q.items.length < capacity then { q.letIn t with items := q.items ++ [x] }
    else { q with putters := q.putters ++ [(t, x)] }

/-- A thread gets the oldest element, whose room goes to the first putter, or lines up. -/
def takeOne (q : FairQueue Tid α) (t : Tid) : FairQueue Tid α :=
  match q.items with
  | [] => { q with takers := q.takers ++ [t] }
  | x :: items =>
    match q.putters with
    | [] => { q.give t x with items := items }
    | (u, y) :: putters => { (q.give t x).letIn u with items := items ++ [y], putters := putters }

section Lines

variable {q : FairQueue Tid α} {capacity : Nat} {t u : Tid} {x y : α}

theorem putOne_of_taker {takers : List Tid} (first : q.takers = u :: takers) :
    q.putOne capacity t x = { (q.letIn t).give u x with takers := takers } := by
  rw [putOne, first]

theorem putOne_of_room (none : q.takers = []) (room : q.items.length < capacity) :
    q.putOne capacity t x = { q.letIn t with items := q.items ++ [x] } := by
  simp only [putOne, none, if_pos room]

theorem putOne_of_full (none : q.takers = []) (full : ¬q.items.length < capacity) :
    q.putOne capacity t x = { q with putters := q.putters ++ [(t, x)] } := by
  simp only [putOne, none, if_neg full]

theorem takeOne_of_empty (none : q.items = []) :
    q.takeOne t = { q with takers := q.takers ++ [t] } := by
  rw [takeOne, none]

theorem takeOne_of_item {items : List α} (first : q.items = x :: items) (none : q.putters = []) :
    q.takeOne t = { q.give t x with items := items } := by
  simp only [takeOne, first, none]

theorem takeOne_of_putter {items : List α} {putters : List (Tid × α)}
    (first : q.items = x :: items) (next : q.putters = (u, y) :: putters) :
    q.takeOne t =
      { (q.give t x).letIn u with items := items ++ [y], putters := putters } := by
  simp only [takeOne, first, next]

end Lines

/-- A thread lines up for the next `n` elements of its call. -/
def lineUp (capacity : Nat) (q : FairQueue Tid α) (t : Tid) (arrived n : Nat) :
    QueueOp α → FairQueue Tid α
  | .put xs => ((xs.drop arrived).take n).foldl (fun q x => q.putOne capacity t x) q
  | .take _ => (List.replicate n t).foldl takeOne q

/-- Somebody waits in the line of the call. -/
def waits (q : FairQueue Tid α) : QueueOp α → Bool
  | .put _ => !q.putters.isEmpty
  | .take _ => !q.takers.isEmpty

def goto (q : FairQueue Tid α) (t : Tid) (p : FairStage α) : FairQueue Tid α :=
  { q with stage := Function.update q.stage t p }

/-- A call lines up for all its elements at once; one that tries may do so for some elements after
others, if it need not wait. -/
def arrive (capacity : Nat) (q : FairQueue Tid α) (t : Tid) (n : Nat) (op : QueueOp α)
    (trying : Bool) (arrived told : Nat) : Option (FairQueue Tid α) :=
  let next := (q.lineUp capacity t arrived n op).goto t (.running op trying (arrived + n) told)
  if trying then
    if arrived + n ≤ op.size ∧ next.waits op = false then some next else none
  else if arrived = 0 ∧ n = op.size then some next
  else none

/-- The steps of a thread. -/
def step [DecidableEq α] (capacity : Nat) (q : FairQueue Tid α) :
    Tid × FairMove α → Option (FairQueue Tid α)
  | (t, .ask op trying) =>
    match q.stage t with
    | .idle | .answered _ => some (q.goto t (.running op trying 0 0))
    | .running _ _ _ _ => none
  | (t, .arrive n) =>
    match q.stage t with
    | .running op trying arrived told => q.arrive capacity t n op trying arrived told
    | .idle | .answered _ => none
  | (t, .entered n) =>
    match q.stage t with
    | .running (.put xs) trying arrived told =>
      if n ≤ q.entered t then
        some
          { q.goto t (.running (.put xs) trying arrived (told + n)) with
            entered := Function.update q.entered t (q.entered t - n) }
      else none
    | .running (.take _) _ _ _ | .idle | .answered _ => none
  | (t, .received xs) =>
    match q.stage t with
    | .running (.take n) trying arrived told =>
      if xs <+: q.given t then
        some
          { q.goto t (.running (.take n) trying arrived (told + xs.length)) with
            given := Function.update q.given t ((q.given t).drop xs.length) }
      else none
    | .running (.put _) _ _ _ | .idle | .answered _ => none
  | (t, .answer) =>
    match q.stage t with
    | .running op trying arrived told =>
      if told = arrived ∧ (trying ∨ arrived = op.size) then some (q.goto t (.answered told))
      else none
    | .idle | .answered _ => none

/-- Any number of threads on a queue that is empty at first. -/
def machine (Tid α : Type*) [DecidableEq Tid] [DecidableEq α] (capacity : Nat) :
    Machine (FairQueue Tid α) (Tid × FairMove α) where
  start q := q = {}
  step := step capacity

/-! ## Numbers -/

/-- The elements of a list whose numbers are from the first one to below the second one. -/
def slice {β : Type*} (l : List β) (r : Nat × Nat) : List β := (l.drop r.1).take (r.2 - r.1)

section Slices

variable {β : Type*} {l : List β} {r : Nat × Nat}

theorem slice_concat (x : β) (lo : r.1 ≤ l.length) (hi : l.length < r.2) :
    slice (l ++ [x]) r = slice l r ++ [x] := by
  have old : (l.drop r.1).take (r.2 - r.1) = l.drop r.1 :=
    List.take_of_length_le (by rw [List.length_drop]; omega)
  rw [slice, slice, old, List.drop_append_of_le_length lo]
  exact List.take_of_length_le (by simp; omega)

theorem slice_concat_of_not (x : β) (out : ¬(r.1 ≤ l.length ∧ l.length < r.2)) :
    slice (l ++ [x]) r = slice l r := by
  by_cases lo : r.1 ≤ l.length
  · rw [slice, List.drop_append_of_le_length lo, List.take_append_of_le_length]
    · rfl
    · rw [List.length_drop]
      omega
  · rw [slice, slice, List.drop_eq_nil_of_le (by simp; omega), List.drop_eq_nil_of_le (by omega)]

theorem slice_eq_drop {lo hi : Nat} (all : l.length ≤ hi) : slice l (lo, hi) = l.drop lo :=
  List.take_of_length_le (by rw [List.length_drop]; omega)

theorem slice_cons {lo hi : Nat} {b : β} (hb : l[lo]? = some b) (lt : lo < hi) :
    slice l (lo, hi) = b :: slice l (lo + 1, hi) := by
  obtain ⟨inside, rfl⟩ := List.getElem?_eq_some_iff.mp hb
  rw [slice, slice, List.drop_eq_getElem_cons inside,
    show hi - lo = (hi - (lo + 1)) + 1 by omega, List.take_succ_cons]

theorem slice_succ {lo hi : Nat} {b : β} (hb : l[hi]? = some b) (le : lo ≤ hi) :
    slice l (lo, hi + 1) = slice l (lo, hi) ++ [b] := by
  have next : (l.drop lo)[hi - lo]? = some b := by
    rw [List.getElem?_drop, Nat.add_sub_cancel' le, hb]
  rw [slice, slice, show hi + 1 - lo = (hi - lo) + 1 by omega, List.take_add_one, next]
  rfl

theorem slice_getElem? {lo hi i : Nat} (lt : lo + i < hi) :
    (slice l (lo, hi))[i]? = l[lo + i]? := by
  rw [slice, List.getElem?_take_of_lt (by omega), List.getElem?_drop]

theorem slice_drop (l : List β) (r : Nat × Nat) (n : Nat) :
    (slice l r).drop n = slice l (r.1 + n, r.2) := by
  rw [slice, slice, List.drop_take, List.drop_drop, Nat.sub_sub]

end Slices

/-- Two bounds of numbers are the same, or there are no numbers between them. -/
def SameSpan (r r' : Nat × Nat) : Prop := r = r' ∨ r.2 ≤ r.1 ∧ r'.2 ≤ r'.1

theorem SameSpan.restart {mine : Tid → Nat × Nat} {t : Tid} (none : (mine t).2 ≤ (mine t).1)
    (k : Nat) (u : Tid) : SameSpan (mine u) (Function.update mine t (k, k) u) := by
  by_cases e : u = t
  · subst e
    rw [Function.update_self]
    exact Or.inr ⟨none, le_rfl⟩
  · rw [Function.update_of_ne e]
    exact Or.inl rfl

/-- A line in the order of arrival, of which some have been served. Of a thread, `mine` are the
numbers from the first one to below the second one that belong to its call and that it has not been
told about. -/
structure Line {β : Type*} (owner : β → Tid) (order : List β) (served : Nat)
    (mine : Tid → Nat × Nat) : Prop where
  own : ∀ u i, (mine u).1 ≤ i → i < (mine u).2 → order[i]?.map owner = some u
  waits : ∀ u i, served ≤ i → order[i]?.map owner = some u → (mine u).1 ≤ i ∧ i < (mine u).2

namespace Line

variable {β : Type*} {owner : β → Tid} {order : List β} {served : Nat} {mine : Tid → Nat × Nat}

omit [DecidableEq Tid]

theorem lt_length (h : Line owner order served mine) {u : Tid} {i : Nat} (le : (mine u).1 ≤ i)
    (lt : i < (mine u).2) : i < order.length := by
  have own := h.own u i le lt
  by_contra ge
  rw [List.getElem?_eq_none (by omega)] at own
  cases own

theorem serve (h : Line owner order served mine) {more : Nat} (le : served ≤ more) :
    Line owner order more mine :=
  ⟨h.own, fun u i wait => h.waits u i (le.trans wait)⟩

theorem congr (h : Line owner order served mine) {bounds : Tid → Nat × Nat}
    (same : ∀ u, SameSpan (mine u) (bounds u)) : Line owner order served bounds := by
  constructor
  · intro u i le lt
    rcases same u with eq | ⟨-, none⟩
    · exact h.own u i (by rw [eq]; exact le) (by rw [eq]; exact lt)
    · omega
  · intro u i wait hu
    obtain ⟨le, lt⟩ := h.waits u i wait hu
    rcases same u with eq | ⟨none, -⟩
    · rw [← eq]
      exact ⟨le, lt⟩
    · omega

variable [DecidableEq Tid]

/-- A thread lines up. -/
theorem arrive (h : Line owner order served mine) (b : β) {lo : Nat}
    (last : mine (owner b) = (lo, order.length)) (le : lo ≤ order.length) :
    Line owner (order ++ [b]) served
      (Function.update mine (owner b) (lo, order.length + 1)) := by
  have old {i : Nat} (lt : i < order.length) : (order ++ [b])[i]? = order[i]? :=
    List.getElem?_append_left lt
  have new : (order ++ [b])[order.length]? = some b := List.getElem?_concat_length
  constructor
  · intro u i le_i lt_i
    by_cases e : u = owner b
    · subst e
      simp only [Function.update_self] at le_i lt_i
      rcases Nat.lt_succ_iff_lt_or_eq.mp lt_i with lt | rfl
      · rw [old lt]
        exact h.own _ i (by rw [last]; exact le_i) (by rw [last]; exact lt)
      · rw [new]
        rfl
    · rw [Function.update_of_ne e] at le_i lt_i
      rw [old (h.lt_length le_i lt_i)]
      exact h.own u i le_i lt_i
  · intro u i wait hu
    rcases Nat.lt_trichotomy i order.length with lt | rfl | gt
    · rw [old lt] at hu
      have own := h.waits u i wait hu
      by_cases e : u = owner b
      · subst e
        rw [last] at own
        rw [Function.update_self]
        exact ⟨own.1, Nat.lt_succ_of_lt own.2⟩
      · rwa [Function.update_of_ne e]
    · rw [new] at hu
      cases hu
      rw [Function.update_self]
      exact ⟨le, Nat.lt_succ_self _⟩
    · rw [List.getElem?_eq_none (by simp; omega)] at hu
      cases hu

/-- A thread is told about some of its numbers that have been served. -/
theorem tell (h : Line owner order served mine) {u : Tid} {n : Nat}
    (done : n = 0 ∨ (mine u).1 + n ≤ served) :
    Line owner order served (Function.update mine u ((mine u).1 + n, (mine u).2)) := by
  constructor
  · intro v i le lt
    by_cases e : v = u
    · subst e
      simp only [Function.update_self] at le lt
      exact h.own v i (by omega) lt
    · rw [Function.update_of_ne e] at le lt
      exact h.own v i le lt
  · intro v i wait hv
    obtain ⟨le, lt⟩ := h.waits v i wait hv
    by_cases e : v = u
    · subst e
      rw [Function.update_self]
      exact ⟨by rcases done with rfl | le' <;> omega, lt⟩
    · rw [Function.update_of_ne e]
      exact ⟨le, lt⟩

end Line

/-- The queue that has served the lines of `puts` and `takes` in the order of arrival. -/
structure Numbered (capacity : Nat) (q : FairQueue Tid α) (puts : List (Tid × α))
    (takes : List Tid) (mine mine' : Tid → Nat × Nat) : Prop where
  line : Line Prod.fst puts (takes.length + capacity) mine
  line' : Line id takes puts.length mine'
  items : q.items = (slice puts (takes.length, takes.length + capacity)).map Prod.snd
  putters : q.putters = puts.drop (takes.length + capacity)
  takers : q.takers = takes.drop puts.length
  entered : ∀ u, q.entered u = min (mine u).2 (takes.length + capacity) - (mine u).1
  given : ∀ u, q.given u = (slice puts (mine' u)).map Prod.snd

omit [DecidableEq Tid] in
theorem Numbered.init (capacity : Nat) :
    Numbered capacity ({} : FairQueue Tid α) [] [] (fun _ => (0, 0)) fun _ => (0, 0) := by
  refine ⟨⟨?_, ?_⟩, ⟨?_, ?_⟩, ?_, ?_, ?_, ?_, ?_⟩ <;> simp [slice]

namespace Numbered

variable {capacity : Nat} {q : FairQueue Tid α} {puts : List (Tid × α)} {takes : List Tid}
  {mine mine' : Tid → Nat × Nat} {t : Tid} {lo : Nat}

/-- A thread lines up one more element. -/
theorem putOne (h : Numbered capacity q puts takes mine mine')
    (last : mine t = (lo, puts.length)) (le : lo ≤ puts.length) (x : α) :
    Numbered capacity (q.putOne capacity t x) (puts ++ [(t, x)]) takes
      (Function.update mine t (lo, puts.length + 1)) mine' := by
  have length : (puts ++ [(t, x)]).length = puts.length + 1 := List.length_append
  have line := h.line.arrive (t, x) last le
  have line' : Line id takes (puts ++ [(t, x)]).length mine' := h.line'.serve (by omega)
  have entered (room : puts.length < takes.length + capacity) (u : Tid) :
      (q.letIn t).entered u =
        min (Function.update mine t (lo, puts.length + 1) u).2 (takes.length + capacity) -
          (Function.update mine t (lo, puts.length + 1) u).1 := by
    by_cases e : u = t
    · subst e
      simp only [letIn, Function.update_self, h.entered, last]
      omega
    · simp only [letIn, Function.update_of_ne e, h.entered]
  by_cases early : puts.length < takes.length
  · have taker : takes[puts.length]? = some takes[puts.length] := List.getElem?_eq_getElem early
    rw [putOne_of_taker (h.takers.trans (List.drop_eq_getElem_cons early))]
    refine ⟨line, line', ?_, ?_, by rw [length], entered (by omega), fun u => ?_⟩
    · exact h.items.trans (by rw [slice_concat_of_not _ (by simp only; omega)])
    · show q.putters = _
      rw [h.putters, List.drop_eq_nil_of_le (by omega), List.drop_eq_nil_of_le (by omega)]
    · by_cases e : u = takes[puts.length]
      · subst e
        have own := h.line'.waits takes[puts.length] puts.length le_rfl (by rw [taker]; rfl)
        rw [slice_concat _ own.1 own.2, List.map_append, ← h.given]
        simp [give, letIn]
      · have out : ¬((mine' u).1 ≤ puts.length ∧ puts.length < (mine' u).2) := fun ⟨le, lt⟩ => by
          have own := h.line'.own u puts.length le lt
          rw [taker] at own
          exact e (Option.some.inj own).symm
        rw [slice_concat_of_not _ out, ← h.given]
        simp [give, letIn, e]
  · have none : q.takers = [] := h.takers.trans (List.drop_eq_nil_of_le (by omega))
    have given (u : Tid) : q.given u = (slice (puts ++ [(t, x)]) (mine' u)).map Prod.snd := by
      rw [slice_concat_of_not, h.given]
      exact fun ⟨le, lt⟩ => early (h.line'.lt_length le lt)
    have takers : q.takers = takes.drop (puts ++ [(t, x)]).length := by
      rw [none, List.drop_eq_nil_of_le (by omega)]
    have count : q.items.length = min capacity (puts.length - takes.length) := by
      simp [h.items, slice]
    by_cases room : q.items.length < capacity
    · rw [putOne_of_room none room]
      refine ⟨line, line', ?_, ?_, takers, entered (by omega), given⟩
      · rw [slice_concat _ (by simp only; omega) (by simp only; omega), List.map_append, ← h.items]
        rfl
      · rw [List.drop_eq_nil_of_le (by omega)]
        exact h.putters.trans (List.drop_eq_nil_of_le (by omega))
    · rw [putOne_of_full none room]
      refine ⟨line, line', ?_, ?_, takers, fun u => ?_, given⟩
      · exact h.items.trans (by rw [slice_concat_of_not _ (by simp only; omega)])
      · rw [List.drop_append_of_le_length (by omega)]
        simp only [h.putters]
      · by_cases e : u = t
        · subst e
          simp only [Function.update_self, h.entered, last]
          omega
        · simp only [Function.update_of_ne e, h.entered]

/-- A thread lines up for one more element. -/
theorem takeOne (h : Numbered capacity q puts takes mine mine') (pos : 0 < capacity)
    (last : mine' t = (lo, takes.length)) (le : lo ≤ takes.length) :
    Numbered capacity (q.takeOne t) puts (takes ++ [t]) mine
      (Function.update mine' t (lo, takes.length + 1)) := by
  have length : (takes ++ [t]).length = takes.length + 1 := List.length_append
  have line : Line Prod.fst puts ((takes ++ [t]).length + capacity) mine :=
    h.line.serve (by omega)
  have line' := h.line'.arrive t last le
  have few (u : Tid) : (mine u).1 < (mine u).2 → (mine u).2 ≤ puts.length := fun lt =>
    Nat.le_of_pred_lt (h.line.lt_length (Nat.le_pred_of_lt lt) (Nat.pred_lt_of_lt lt))
  by_cases late : puts.length ≤ takes.length
  · have none : q.items = [] := by
      rw [h.items, slice_eq_drop (by omega), List.drop_eq_nil_of_le late]
      rfl
    rw [takeOne_of_empty none]
    refine ⟨line, line', ?_, ?_, ?_, fun u => ?_, fun u => ?_⟩
    · rw [slice_eq_drop (by omega), List.drop_eq_nil_of_le (by omega)]
      exact none
    · show q.putters = _
      rw [h.putters, List.drop_eq_nil_of_le (by omega), List.drop_eq_nil_of_le (by omega)]
    · rw [List.drop_append_of_le_length late, ← h.takers]
    · show q.entered u = _
      have := few u
      rw [h.entered]
      omega
    · show q.given u = _
      rw [h.given]
      by_cases e : u = t
      · subst e
        rw [Function.update_self, last, slice_eq_drop late, slice_eq_drop (by omega)]
      · rw [Function.update_of_ne e]
  · obtain ⟨⟨v, x⟩, hx⟩ : ∃ b, puts[takes.length]? = some b :=
      ⟨_, List.getElem?_eq_getElem (by omega)⟩
    have first : q.items =
        x :: (slice puts (takes.length + 1, takes.length + capacity)).map Prod.snd := by
      rw [h.items, slice_cons hx (by omega)]
      rfl
    have takers : q.takers = (takes ++ [t]).drop puts.length := by
      rw [h.takers, List.drop_eq_nil_of_le (by omega), List.drop_eq_nil_of_le (by omega)]
    have given (u : Tid) : (q.give t x).given u =
        (slice puts (Function.update mine' t (lo, takes.length + 1) u)).map Prod.snd := by
      by_cases e : u = t
      · subst e
        rw [Function.update_self, slice_succ hx le, List.map_append]
        simp [give, h.given, last]
      · simp [give, h.given, e]
    by_cases room : puts.length ≤ takes.length + capacity
    · have none : q.putters = [] := h.putters.trans (List.drop_eq_nil_of_le room)
      rw [takeOne_of_item first none]
      refine ⟨line, line', ?_, ?_, takers, fun u => ?_, given⟩
      · rw [slice_eq_drop room, slice_eq_drop (by omega), length]
      · rw [List.drop_eq_nil_of_le (by omega)]
        exact none
      · show q.entered u = _
        have := few u
        rw [h.entered]
        omega
    · obtain ⟨⟨w, y⟩, hy⟩ : ∃ b, puts[takes.length + capacity]? = some b :=
        ⟨_, List.getElem?_eq_getElem (by omega)⟩
      have next : q.putters = (w, y) :: puts.drop ((takes ++ [t]).length + capacity) := by
        obtain ⟨inside, same⟩ := List.getElem?_eq_some_iff.mp hy
        rw [h.putters, List.drop_eq_getElem_cons inside, same, length,
          Nat.add_right_comm takes.length 1 capacity]
      rw [takeOne_of_putter first next]
      refine ⟨line, line', ?_, rfl, takers, fun u => ?_, given⟩
      · rw [length, Nat.add_right_comm takes.length 1 capacity, slice_succ hy (by omega),
          List.map_append]
        rfl
      · have own := h.line.waits w (takes.length + capacity) le_rfl (by rw [hy]; rfl)
        by_cases e : u = w
        · subst e
          simp only [letIn, give, Function.update_self, h.entered]
          omega
        · have out : ¬((mine u).1 ≤ takes.length + capacity ∧
              takes.length + capacity < (mine u).2) := fun ⟨le, lt⟩ => by
            have own := h.line.own u _ le lt
            rw [hy] at own
            exact e (Option.some.inj own).symm
          simp only [letIn, give, Function.update_of_ne e, h.entered]
          omega

omit [DecidableEq Tid] in
theorem congr (h : Numbered capacity q puts takes mine mine') {bounds bounds' : Tid → Nat × Nat}
    (same : ∀ u, SameSpan (mine u) (bounds u)) (same' : ∀ u, SameSpan (mine' u) (bounds' u)) :
    Numbered capacity q puts takes bounds bounds' := by
  refine ⟨h.line.congr same, h.line'.congr same', h.items, h.putters, h.takers, fun u => ?_,
    fun u => ?_⟩
  · rw [h.entered]
    rcases same u with eq | none
    · rw [eq]
    · omega
  · rw [h.given]
    rcases same' u with eq | ⟨none, none'⟩
    · rw [eq]
    · rw [slice, slice, Nat.sub_eq_zero_of_le none, Nat.sub_eq_zero_of_le none', List.take_zero,
        List.take_zero]

theorem goto (h : Numbered capacity q puts takes mine mine') (t : Tid) (p : FairStage α) :
    Numbered capacity (q.goto t p) puts takes mine mine' :=
  ⟨h.line, h.line', h.items, h.putters, h.takers, h.entered, h.given⟩

/-- A thread lines up all elements of a list. -/
theorem putAll (h : Numbered capacity q puts takes mine mine')
    (last : mine t = (lo, puts.length)) (le : lo ≤ puts.length) (xs : List α) :
    Numbered capacity (xs.foldl (fun q x => q.putOne capacity t x) q)
      (puts ++ xs.map (Prod.mk t)) takes
      (Function.update mine t (lo, puts.length + xs.length)) mine' := by
  induction xs generalizing q puts mine with
  | nil =>
    have same : Function.update mine t (lo, puts.length) = mine := by
      rw [← last, Function.update_eq_self]
    simpa [same] using h
  | cons x xs ih =>
    have length : (puts ++ [(t, x)]).length = puts.length + 1 := List.length_append
    have rest := ih (h.putOne last le x) (by rw [Function.update_self, length]) (by omega)
    rw [Function.update_idem, length] at rest
    rw [List.append_assoc, Nat.add_assoc, Nat.add_comm 1] at rest
    exact rest

/-- A thread lines up for `n` elements. -/
theorem takeAll (h : Numbered capacity q puts takes mine mine') (pos : 0 < capacity)
    (last : mine' t = (lo, takes.length)) (le : lo ≤ takes.length) (n : Nat) :
    Numbered capacity ((List.replicate n t).foldl FairQueue.takeOne q) puts
      (takes ++ List.replicate n t) mine
      (Function.update mine' t (lo, takes.length + n)) := by
  induction n generalizing q takes mine' with
  | zero =>
    have same : Function.update mine' t (lo, takes.length) = mine' := by
      rw [← last, Function.update_eq_self]
    simpa [same] using h
  | succ n ih =>
    have length : (takes ++ [t]).length = takes.length + 1 := List.length_append
    have rest := ih (h.takeOne pos last le) (by rw [Function.update_self, length]) (by omega)
    rw [Function.update_idem, length] at rest
    rw [List.append_assoc, Nat.add_assoc, Nat.add_comm 1] at rest
    exact rest

theorem lineUp_put (h : Numbered capacity q puts takes mine mine')
    (none : (mine t).2 ≤ (mine t).1) {xs : List α} {arrived n : Nat}
    (le : arrived + n ≤ xs.length) :
    Numbered capacity (q.lineUp capacity t arrived n (.put xs))
      (puts ++ ((xs.drop arrived).take n).map (Prod.mk t)) takes
      (Function.update mine t (puts.length, puts.length + n)) mine' := by
  have ready := h.congr (SameSpan.restart none puts.length) fun _ => Or.inl rfl
  have all := ready.putAll (Function.update_self ..) le_rfl ((xs.drop arrived).take n)
  rwa [Function.update_idem, List.length_take_of_le (by rw [List.length_drop]; omega)] at all

theorem lineUp_take (h : Numbered capacity q puts takes mine mine') (pos : 0 < capacity)
    (none : (mine' t).2 ≤ (mine' t).1) (arrived n m : Nat) :
    Numbered capacity (q.lineUp capacity t arrived n (.take m)) puts
      (takes ++ List.replicate n t) mine
      (Function.update mine' t (takes.length, takes.length + n)) := by
  have ready := h.congr (fun _ => Or.inl rfl) (SameSpan.restart none takes.length)
  have all := ready.takeAll pos (Function.update_self ..) le_rfl n
  rwa [Function.update_idem] at all

omit [DecidableEq Tid] in
theorem waits_put (h : Numbered capacity q puts takes mine mine') (xs : List α) :
    q.waits (.put xs) = false ↔ puts.length ≤ takes.length + capacity := by
  rw [waits, h.putters, Bool.not_eq_false', List.isEmpty_iff, List.drop_eq_nil_iff]

omit [DecidableEq Tid] in
theorem waits_take (h : Numbered capacity q puts takes mine mine') (n : Nat) :
    q.waits (.take n) = false ↔ takes.length ≤ puts.length := by
  rw [waits, h.takers, Bool.not_eq_false', List.isEmpty_iff, List.drop_eq_nil_iff]

/-- A thread is told that some of its elements are in. -/
theorem tellEntered (h : Numbered capacity q puts takes mine mine') {n : Nat}
    (le : n ≤ q.entered t) (p : FairStage α) :
    Numbered capacity
      { q.goto t p with entered := Function.update q.entered t (q.entered t - n) } puts takes
      (Function.update mine t ((mine t).1 + n, (mine t).2)) mine' := by
  refine ⟨h.line.tell ?_, h.line', h.items, h.putters, h.takers, fun u => ?_, h.given⟩
  · rw [h.entered] at le
    omega
  · by_cases e : u = t
    · subst e
      simp only [Function.update_self, h.entered]
      omega
    · simp only [Function.update_of_ne e, h.entered]

/-- A thread gets some of the elements that are given to it. -/
theorem tellGiven (h : Numbered capacity q puts takes mine mine') {n : Nat}
    (le : n ≤ (q.given t).length) (p : FairStage α) :
    Numbered capacity { q.goto t p with given := Function.update q.given t ((q.given t).drop n) }
      puts takes mine (Function.update mine' t ((mine' t).1 + n, (mine' t).2)) := by
  refine ⟨h.line, h.line'.tell ?_, h.items, h.putters, h.takers, h.entered, fun u => ?_⟩
  · rw [h.given, List.length_map, slice, List.length_take, List.length_drop] at le
    omega
  · by_cases e : u = t
    · subst e
      simp only [Function.update_self, h.given, ← List.map_drop, slice_drop]
    · simp only [Function.update_of_ne e, h.given]

end Numbered

/-! ## Steps -/

section Steps

variable {capacity : Nat} {q : FairQueue Tid α} {t : Tid}

theorem putOne_stage (q : FairQueue Tid α) (t : Tid) (x : α) :
    (q.putOne capacity t x).stage = q.stage := by
  unfold putOne
  split
  · rfl
  · split_ifs <;> rfl

theorem takeOne_stage (q : FairQueue Tid α) (t : Tid) : (q.takeOne t).stage = q.stage := by
  unfold takeOne
  split
  · rfl
  · split <;> rfl

omit [DecidableEq Tid] in
theorem foldl_stage {β : Type*} {f : FairQueue Tid α → β → FairQueue Tid α}
    (keeps : ∀ q b, (f q b).stage = q.stage) (l : List β) (q : FairQueue Tid α) :
    (l.foldl f q).stage = q.stage := by
  induction l generalizing q with
  | nil => rfl
  | cons b l ih => exact (ih _).trans (keeps q b)

@[simp] theorem lineUp_stage (q : FairQueue Tid α) (t : Tid) (arrived n : Nat) (op : QueueOp α) :
    (q.lineUp capacity t arrived n op).stage = q.stage := by
  cases op with
  | put xs => exact foldl_stage (fun q x => putOne_stage q t x) _ q
  | take m => exact foldl_stage takeOne_stage _ q

theorem step_arrive [DecidableEq α] {op : QueueOp α} {trying : Bool} {arrived told n : Nat}
    (stage : q.stage t = .running op trying arrived told)
    (fits : if trying then
      arrived + n ≤ op.size ∧ (q.lineUp capacity t arrived n op).waits op = false
      else arrived = 0 ∧ n = op.size) :
    q.step capacity (t, .arrive n) =
      some ((q.lineUp capacity t arrived n op).goto t (.running op trying (arrived + n) told)) := by
  simp only [step, stage, arrive]
  split_ifs at fits ⊢ with tries able
  · rfl
  · exact absurd fits able
  · rfl

end Steps

end FairQueue

end Fuxi.Lib
