import Fuxi.Base.ConcurrentVector.RetireList
import Fuxi.Lib.Linked

/-!
# When a retired element is deleted

The timestamp of the head stands for all elements of the list. An element that was passed to
`retire` more than one unit after that timestamp may be deleted too early. That happens when a
push publishes a timestamp that was read long before; apart from that, an element waits for at
least one unit.
-/

namespace Fuxi.Base.RetireList

open Lib

variable {Tid T : Type*}

/-- Where a node is: with a thread in `retire`, on the list, or with a thread in `delete_list`. -/
inductive Place (Tid : Type*)
  | pending (t : Tid)
  | listed
  | taken (t : Tid)

namespace State

/-- An element that was passed to `retire` at a time is old enough when the timestamp expires that
was read as `reading`, or is old enough now. -/
def Covers (s : State Tid T) (reading time : Nat) : Prop :=
  time ≤ (reading + 1) * timeUnit ∨ time + timeUnit ≤ s.clock

/-- A thread holds a node that it has created, with an element from before a time. -/
structure Pending (s : State Tid T) (place : Nat → Place Tid) (t : Tid) (node before : Nat) :
    Prop where
  pos : 0 < node
  lt : node < 2 ^ 48
  placed : place node = .pending t
  created : ∃ n, s.heap node = some n ∧ n.retired < before

/-- What a thread relies on. -/
def Knows (s : State Tid T) (place : Nat → Place Tid) (t : Tid) : Phase → Prop
  | .idle | .gcLoad | .gcClock _ => True
  | .retireLoad node | .retireClock node _ => s.Pending place t node (s.clock + 1)
  | .retireStrong node head reading => s.Pending place t node ((reading + 1) * timeUnit) ∧
    reading * timeUnit ≤ s.clock ∧ expire head (u16 reading) = true
  | .retireWeak node _ reading => s.Pending place t node ((reading + 1) * timeUnit)
  | .gcStrong head reading => reading * timeUnit ≤ s.clock ∧ expire head (u16 reading) = true
  | .deleteList node => Chained Node.next
    (fun a n => place a = .taken t ∧ n.retired + timeUnit ≤ s.clock) s.heap node

/-- The list at the head. -/
def Listed (s : State Tid T) (place : Nat → Place Tid) : Prop :=
  Chained Node.next (fun a n => place a = .listed ∧ n.retired ≤ s.latest) s.heap (getNode s.head)

/-- The invariant, for the places of the nodes. -/
structure Placed (s : State Tid T) (place : Nat → Place Tid) : Prop where
  head : s.head = 0 ∨ ∃ node < 2 ^ 48, s.head = makeHead node (u16 s.reading)
  listed : s.Listed place
  covers : getNode s.head ≠ 0 → s.Covers s.reading s.latest
  knows : ∀ t, s.Knows place t (s.phase t)
  deleted : ∀ d ∈ s.deleted, d.retired + timeUnit ≤ d.time

/-! ## What the steps of the others leave alone -/

/-- The nodes of a thread stay where they are. -/
structure Keeps (s s' : State Tid T) (place place' : Nat → Place Tid) (t : Tid) : Prop where
  clock : s.clock ≤ s'.clock
  pending : ∀ a n, s.heap a = some n → place a = .pending t →
    (∃ n', s'.heap a = some n' ∧ n'.retired = n.retired) ∧ place' a = .pending t
  taken : ∀ a n, s.heap a = some n → place a = .taken t →
    s'.heap a = some n ∧ place' a = .taken t

variable {s s' : State Tid T} {place place' : Nat → Place Tid} {t : Tid} {node before : Nat}

theorem Keeps.pending_of (keeps : s.Keeps s' place place' t)
    (h : s.Pending place t node before) {before' : Nat} (le : before ≤ before') :
    s'.Pending place' t node before' := by
  obtain ⟨n, here, lt⟩ := h.created
  obtain ⟨⟨n', there, same⟩, placed⟩ := keeps.pending node n here h.placed
  exact ⟨h.pos, h.lt, placed, n', there, same ▸ lt.trans_le le⟩

theorem Keeps.knows (keeps : s.Keeps s' place place' t) {p : Phase} (h : s.Knows place t p) :
    s'.Knows place' t p := by
  have clock := keeps.clock
  cases p with
  | idle | gcLoad | gcClock => trivial
  | retireLoad node | retireClock node =>
    exact keeps.pending_of h (Nat.succ_le_succ clock)
  | retireStrong node head reading =>
    exact ⟨keeps.pending_of h.1 le_rfl, h.2.1.trans clock, h.2.2⟩
  | retireWeak node head reading => exact keeps.pending_of h le_rfl
  | gcStrong head reading => exact ⟨h.1.trans clock, h.2⟩
  | deleteList node =>
    refine Chained.frame h fun a n here ok => ?_
    obtain ⟨there, placed⟩ := keeps.taken a n here ok.1
    exact ⟨there, placed, ok.2.trans clock⟩

/-- A thread has a node. -/
def Held (place : Nat → Place Tid) (t : Tid) (a : Nat) : Prop :=
  place a = .pending t ∨ place a = .taken t

/-- The nodes of the thread are not touched. -/
theorem Keeps.of_held (clock : s.clock ≤ s'.clock)
    (heap : ∀ a, s.heap a ≠ none → Held place t a → s'.heap a = s.heap a)
    (same : ∀ a, s.heap a ≠ none → Held place t a → place' a = place a) :
    s.Keeps s' place place' t := by
  have there : ∀ {a n}, s.heap a = some n → s.heap a ≠ none := fun here => by simp [here]
  refine ⟨clock, fun a n here placed => ?_, fun a n here placed => ?_⟩
  · have held : Held place t a := Or.inl placed
    exact ⟨⟨n, (heap a (there here) held).trans here, rfl⟩,
      (same a (there here) held).trans placed⟩
  · have held : Held place t a := Or.inr placed
    exact ⟨(heap a (there here) held).trans here, (same a (there here) held).trans placed⟩

theorem ne_of_placed {a b : Nat} {π ρ : Place Tid} (ha : place a = π) (hb : place b = ρ)
    (ne : π ≠ ρ) : a ≠ b := by
  rintro rfl
  exact ne (ha.symm.trans hb)

theorem Pending.ne_of_held (h : s.Pending place t node before) {u : Tid} (ne : u ≠ t) {a : Nat}
    (held : Held place u a) : a ≠ node := by
  obtain e | e := held
  · exact ne_of_placed e h.placed fun same => ne (Place.pending.inj same)
  · exact ne_of_placed e h.placed (by simp)

/-! ## The steps -/

theorem Placed.pass (h : s.Placed place) (time : Nat) :
    { s with clock := s.clock + time }.Placed place where
  head := h.head
  listed := h.listed
  covers ne := (h.covers ne).imp_right fun old => Nat.le_add_right_of_le old
  knows t := by
    have keeps : s.Keeps { s with clock := s.clock + time } place place t :=
      .of_held (Nat.le_add_right s.clock time) (fun _ _ _ => rfl) fun _ _ _ => rfl
    exact keeps.knows (h.knows t)
  deleted := h.deleted

variable [DecidableEq Tid]

theorem knows_goto {p : Phase} (others : ∀ u ≠ t, s.Knows place u (s.phase u))
    (own : s.Knows place t p) (u : Tid) :
    (s.goto t p).Knows place u ((s.goto t p).phase u) := by
  have keeps : s.Keeps (s.goto t p) place place u :=
    .of_held le_rfl (fun _ _ _ => rfl) fun _ _ _ => rfl
  by_cases e : u = t
  · subst e
    simp only [State.goto, Function.update_self]
    exact keeps.knows own
  · simp only [State.goto, Function.update_of_ne e]
    exact keeps.knows (others u e)

/-- A thread goes on to where it knows enough. -/
theorem Placed.goto (h : s.Placed place) {p : Phase} (own : s.Knows place t p) :
    (s.goto t p).Placed place where
  head := h.head
  listed := h.listed
  covers := h.covers
  knows := knows_goto (fun u _ => h.knows u) own
  deleted := h.deleted

omit [DecidableEq Tid] in
theorem Pending.retired_eq {n : Node T} (here : s.heap node = some n) :
    s.retired node = n.retired := by
  rw [State.retired, here, Option.elim_some]

omit [DecidableEq Tid] in
/-- What a thread does with its own node. -/
theorem keeps_link (next : Nat) (pending : s.Pending place t node before) (u : Tid) :
    s.Keeps (s.link node next) place place u := by
  obtain ⟨n, here, -⟩ := pending.created
  refine ⟨le_rfl, fun a m there placed => ⟨?_, placed⟩, fun a m there placed => ⟨?_, placed⟩⟩
  · by_cases e : a = node
    · subst e
      exact ⟨{ m with next }, by simp [link, there], rfl⟩
    · exact ⟨m, (Function.update_of_ne e _ _).trans there, rfl⟩
  · have ne : a ≠ node := ne_of_placed placed pending.placed (by simp)
    exact (Function.update_of_ne ne _ _).trans there

omit [DecidableEq Tid] in
theorem Placed.link (h : s.Placed place) (pending : s.Pending place t node before) (next : Nat) :
    (s.link node next).Placed place where
  head := h.head
  listed := by
    refine Chained.frame h.listed fun a n here ok => ?_
    have ne : a ≠ node := ne_of_placed ok.1 pending.placed (by simp)
    exact ⟨(Function.update_of_ne ne _ _).trans here, ok⟩
  covers := h.covers
  knows u := (keeps_link next pending u).knows (h.knows u)
  deleted := h.deleted

omit [DecidableEq Tid] in
theorem Pending.link (h : s.Pending place t node before) (next : Nat) :
    (s.link node next).Pending place t node before :=
  (keeps_link next h t).pending_of h le_rfl

omit [DecidableEq Tid] in
theorem retired_link (h : s.Pending place t node before) (next : Nat) :
    ∃ n, (s.link node next).heap node = some n ∧ n.next = next ∧ n.retired = s.retired node ∧
      n.retired < before := by
  obtain ⟨n, here, lt⟩ := h.created
  refine ⟨{ n with next }, by simp [State.link, here], rfl, ?_, lt⟩
  rw [Pending.retired_eq here]

/-- A node is created. -/
theorem Placed.create (h : s.Placed place) {data : T} {address : Nat}
    (hs : s.create t data address = some s') : ∃ place', s'.Placed place' := by
  rw [State.create] at hs
  split_ifs at hs with fresh
  cases hs
  obtain ⟨free, pos, lt⟩ := fresh
  have other : ∀ a, s.heap a ≠ none → a ≠ address := fun a there e => there (e ▸ free)
  have keeps : ∀ u, s.Keeps
      { s with heap := Function.update s.heap address (some ⟨data, 0, s.clock⟩) }
      place (Function.update place address (.pending t)) u := fun u =>
    .of_held le_rfl (fun a there _ => Function.update_of_ne (other a there) _ _)
      fun a there _ => Function.update_of_ne (other a there) _ _
  refine ⟨Function.update place address (.pending t), Placed.goto ?_ ?_⟩
  · refine ⟨h.head, Chained.frame h.listed fun a n here ok => ?_, h.covers,
      fun u => (keeps u).knows (h.knows u), h.deleted⟩
    have ne := other a (by simp [here])
    exact ⟨(Function.update_of_ne ne _ _).trans here, (Function.update_of_ne ne _ _).trans ok.1,
      ok.2⟩
  · exact ⟨pos, lt, Function.update_self .., _, Function.update_self .., Nat.lt_succ_self _⟩

/-! ## The list is taken -/

/-- A thread gets all nodes of the list. -/
def take (place : Nat → Place Tid) (t : Tid) (a : Nat) : Place Tid :=
  match place a with
  | .listed => .taken t
  | .pending u => .pending u
  | .taken u => .taken u

omit [DecidableEq Tid] in
theorem take_of_held {u : Tid} {a : Nat} (held : Held place u a) : take place t a = place a := by
  obtain e | e := held
  · rw [take, e]
  · rw [take, e]

omit [DecidableEq Tid] in
/-- All elements of a list that has expired for a reading from after its own are old enough. -/
theorem Placed.expired (h : s.Placed place) (t : Tid) {reading : Nat}
    (past : reading * timeUnit ≤ s.clock) (expired : expire s.head (u16 reading) = true)
    (ordered : getNode s.head ≠ 0 → s.reading ≤ reading) :
    Chained Node.next (fun a n => take place t a = .taken t ∧ n.retired + timeUnit ≤ s.clock) s.heap
      (getNode s.head) := by
  by_cases empty : getNode s.head = 0
  · rw [empty]
    exact .null
  · refine Chained.frame h.listed fun a n here ok => ⟨here, by rw [take, ok.1], ?_⟩
    obtain zero | ⟨node, lt, word⟩ := h.head
    · rw [zero] at empty
      exact absurd rfl empty
    · rw [word] at expired
      have later := expire_makeHead lt (ordered empty) expired
      have latest := ok.2
      obtain near | old := h.covers empty
      · have units : (s.reading + 2) * timeUnit ≤ reading * timeUnit :=
          Nat.mul_le_mul_right timeUnit later
        rw [Nat.add_mul] at units near
        omega
      · omega

/-- The compare-exchange of `gc`. -/
theorem Placed.gcStrong (h : s.Placed place) {head reading : Nat}
    (at_ : s.phase t = .gcStrong head reading)
    (ordered : s.head = head → getNode head ≠ 0 → s.reading ≤ reading) :
    ∃ place', (s.gcStrong t head).Placed place' := by
  have knows := h.knows t
  rw [at_] at knows
  obtain ⟨past, expired⟩ := knows
  unfold State.gcStrong
  split_ifs with same
  · subst same
    have emptied : { s with head := 0 }.Placed (take place t) := by
      refine ⟨Or.inl rfl, ?_, fun ne => ?_, fun u => ?_, h.deleted⟩
      · simp only [Listed, getNode_zero]
        exact .null
      · exact absurd getNode_zero ne
      · have keeps : s.Keeps { s with head := 0 } place (take place t) u :=
          .of_held le_rfl (fun _ _ _ => rfl) fun _ _ => take_of_held
        exact keeps.knows (h.knows u)
    exact ⟨take place t, emptied.goto (h.expired t past expired (ordered rfl))⟩
  · exact ⟨place, h.goto trivial⟩

/-- A thread puts its node at the head. -/
theorem Placed.publish (h : s.Placed place) (pending : s.Pending place t node before)
    {reading latest : Nat} {p : Phase} (others : ∀ u a, Held place u a → a ≠ node →
      place' a = place a)
    (list : Chained Node.next (fun a n => place' a = .listed ∧ n.retired ≤ latest) s.heap node)
    (covers : s.Covers reading latest)
    (own : { s with head := makeHead node (u16 reading), reading, latest }.Knows place' t p) :
    ({ s with head := makeHead node (u16 reading), reading, latest }.goto t p).Placed place' := by
  refine ⟨Or.inr ⟨node, pending.lt, rfl⟩, ?_, fun _ => covers, knows_goto (fun u ne => ?_) own,
    h.deleted⟩
  · rw [Listed]
    simpa only [State.goto, getNode_makeHead pending.lt] using list
  · have keeps : s.Keeps { s with head := makeHead node (u16 reading), reading, latest }
        place place' u :=
      .of_held le_rfl (fun _ _ _ => rfl) fun a _ held =>
        others u a held (pending.ne_of_held ne held)
    exact keeps.knows (h.knows u)

/-- The strong compare-exchange of `retire`. -/
theorem Placed.retireStrong (h : s.Placed place) {head reading : Nat}
    (at_ : s.phase t = .retireStrong node head reading)
    (ordered : s.head = head → getNode head ≠ 0 → s.reading ≤ reading) :
    ∃ place', (s.retireStrong t node head reading).Placed place' := by
  have knows := h.knows t
  rw [at_] at knows
  obtain ⟨pending, past, expired⟩ := knows
  have linked := h.link pending 0
  unfold State.retireStrong
  split_ifs with same
  · subst same
    obtain ⟨n, here, last, same, lt⟩ := retired_link pending 0
    refine ⟨Function.update (take place t) node .listed, linked.publish (pending.link 0) ?_ ?_
      (Or.inl ?_) ?_⟩
    · intro u a held ne
      rw [Function.update_of_ne ne, take_of_held held]
    · refine .cons pending.pos.ne' here ⟨Function.update_self .., same.le⟩ ?_
      rw [last]
      exact .null
    · rw [← same]
      exact lt.le
    · refine Chained.frame (linked.expired t past expired (ordered rfl)) fun a n there ok => ?_
      have own : take place t node = .pending t := by rw [take, pending.placed]
      have ne : a ≠ node := ne_of_placed ok.1 own (by simp)
      exact ⟨there, (Function.update_of_ne ne _ _).trans ok.1, ok.2⟩
  · exact ⟨place, linked.goto (pending.link 0)⟩

omit [DecidableEq Tid] in
/-- The timestamp of a push covers the list and the new element. -/
theorem covers_push {reading : Nat} (new : s.retired node < (reading + 1) * timeUnit)
    (fresh : getNode s.head ≠ 0 → s.Covers reading s.latest) :
    let latest := if getNode s.head = 0 then s.retired node else max s.latest (s.retired node)
    s.retired node ≤ latest ∧ (getNode s.head ≠ 0 → s.latest ≤ latest) ∧
      s.Covers reading latest := by
  by_cases empty : getNode s.head = 0
  · simp only [if_pos empty]
    exact ⟨le_rfl, fun ne => absurd empty ne, Or.inl new.le⟩
  · simp only [if_neg empty]
    refine ⟨le_max_right _ _, fun _ => le_max_left _ _, ?_⟩
    obtain le | le := Nat.le_total s.latest (s.retired node)
    · rw [max_eq_right le]
      exact Or.inl new.le
    · rw [max_eq_left le]
      exact fresh empty

/-- The weak compare-exchange of `retire`. -/
theorem Placed.retireWeak (h : s.Placed place) {head reading : Nat} {spurious : Bool}
    (at_ : s.phase t = .retireWeak node head reading)
    (fresh : s.head = head → spurious = false → getNode head ≠ 0 → s.Covers reading s.latest) :
    ∃ place', (s.retireWeak t node head reading spurious).Placed place' := by
  have knows := h.knows t
  rw [at_] at knows
  have pending : s.Pending place t node ((reading + 1) * timeUnit) := knows
  have linked := h.link pending (getNode head)
  by_cases same : s.head = head ∧ spurious = false
  · rw [State.retireWeak, if_pos same]
    obtain ⟨rfl, sure⟩ := same
    obtain ⟨n, here, last, same, lt⟩ := retired_link pending (getNode s.head)
    have new : s.retired node < (reading + 1) * timeUnit := same ▸ lt
    obtain ⟨top, rest, covers⟩ := covers_push new (fresh rfl sure)
    refine ⟨Function.update place node .listed,
      linked.publish (pending.link (getNode s.head)) ?_ ?_ covers trivial⟩
    · intro u a held ne
      rw [Function.update_of_ne ne]
    · refine .cons pending.pos.ne' here ⟨Function.update_self .., same.trans_le top⟩ ?_
      rw [last]
      by_cases empty : getNode s.head = 0
      · rw [empty]
        exact .null
      · refine Chained.frame linked.listed fun a m there ok => ⟨there, ?_, ok.2.trans (rest empty)⟩
        rw [Function.update_of_ne (ne_of_placed ok.1 pending.placed (by simp)), ok.1]
  · rw [State.retireWeak, if_neg same]
    exact ⟨place, linked.goto (p := .retireWeak node s.head reading) (pending.link _)⟩

/-- One element is deleted. -/
theorem Placed.deleteList (h : s.Placed place) (at_ : s.phase t = .deleteList node) :
    ∃ s', s.deleteList t node = some s' ∧ s'.Placed place := by
  have knows := h.knows t
  rw [at_] at knows
  unfold State.deleteList
  split_ifs with null
  · exact ⟨_, rfl, h.goto trivial⟩
  · obtain ⟨n, here, ⟨placed, old⟩, rest⟩ := Chained.tail knows null
    rw [here]
    refine ⟨_, rfl, h.head, ?_, h.covers, knows_goto (fun u ne => ?_) rest, ?_⟩
    · refine Chained.frame h.listed fun a m there ok => ?_
      have ne : a ≠ node := ne_of_placed ok.1 placed (by simp)
      exact ⟨(Function.update_of_ne ne _ _).trans there, ok⟩
    · have keeps : s.Keeps { s with
          heap := Function.update s.heap node none
          deleted := ⟨n.data, n.retired, s.clock⟩ :: s.deleted } place place u := by
        refine .of_held le_rfl (fun a _ held => Function.update_of_ne ?_ _ _) fun _ _ _ => rfl
        obtain e | e := held
        · exact ne_of_placed e placed (by simp)
        · exact ne_of_placed e placed fun same => ne (Place.taken.inj same)
      exact keeps.knows (h.knows u)
    · intro d mem
      obtain rfl | mem := List.mem_cons.mp mem
      · exact old
      · exact h.deleted d mem

/-! ## Runs -/

omit [DecidableEq Tid] in
/-- The condition for a compare-exchange. One that takes a list finds a timestamp that was not
read after its own; one that pushes a node to a list covers all elements of the list. -/
def CarefulIn (s : State Tid T) (spurious : Bool) : Phase → Prop
  | .retireStrong _ head reading => s.head = head → getNode head ≠ 0 → s.reading ≤ reading
  | .retireWeak _ head reading =>
    s.head = head → spurious = false → getNode head ≠ 0 → s.Covers reading s.latest
  | .gcStrong head reading => s.head = head → getNode head ≠ 0 → s.reading ≤ reading
  | .idle | .retireLoad _ | .retireClock _ _ | .gcLoad | .gcClock _ | .deleteList _ => True

omit [DecidableEq Tid] in
/-- The condition for a step. -/
def Careful (s : State Tid T) (m : Tid × Move T) (_ : State Tid T) : Prop :=
  match m.2 with
  | .next spurious => s.CarefulIn spurious (s.phase m.1)
  | .pass _ | .retire _ _ | .gc => True

instance (s : State Tid T) (reading time : Nat) : Decidable (s.Covers reading time) :=
  inferInstanceAs (Decidable (_ ∨ _))

instance (s : State Tid T) (spurious : Bool) : (p : Phase) → Decidable (s.CarefulIn spurious p)
  | .retireStrong _ _ _ => inferInstanceAs (Decidable (_ → _ → _))
  | .retireWeak _ _ _ => inferInstanceAs (Decidable (_ → _ → _ → _))
  | .gcStrong _ _ => inferInstanceAs (Decidable (_ → _ → _))
  | .idle | .retireLoad _ | .retireClock _ _ | .gcLoad | .gcClock _ | .deleteList _ =>
    .isTrue trivial

instance (s : State Tid T) : (m : Tid × Move T) → (s' : State Tid T) → Decidable (s.Careful m s')
  | (t, .next spurious), _ => inferInstanceAs (Decidable (s.CarefulIn spurious (s.phase t)))
  | (_, .pass _), _ | (_, .retire _ _), _ | (_, .gc), _ => .isTrue trivial

/-- A thread can always go on, so that it reads no node that does not exist, and the nodes have
their places again. -/
theorem Placed.next (h : s.Placed place) (busy : s.phase t ≠ .idle) {spurious : Bool}
    (careful : s.CarefulIn spurious (s.phase t)) :
    ∃ s', s.next t spurious = some s' ∧ ∃ place', s'.Placed place' := by
  have knows := h.knows t
  unfold State.next
  cases at_ : s.phase t with
  | idle => exact absurd at_ busy
  | retireLoad node =>
    rw [at_] at knows
    exact ⟨_, rfl, place, h.goto (p := .retireClock node s.head) knows⟩
  | retireClock node head =>
    rw [at_] at knows
    have pending : s.Pending place t node ((units s.clock + 1) * timeUnit) :=
      Keeps.pending_of (.of_held le_rfl (fun _ _ _ => rfl) fun _ _ _ => rfl) knows
        (lt_units_mul s.clock)
    simp only
    split_ifs with expired
    · exact ⟨_, rfl, place, h.goto ⟨pending, units_mul_le s.clock, expired⟩⟩
    · exact ⟨_, rfl, place, h.goto (p := .retireWeak node head (units s.clock)) pending⟩
  | retireStrong node head reading =>
    rw [at_] at careful
    exact ⟨_, rfl, h.retireStrong at_ careful⟩
  | retireWeak node head reading =>
    rw [at_] at careful
    exact ⟨_, rfl, h.retireWeak at_ careful⟩
  | gcLoad => exact ⟨_, rfl, place, h.goto (p := .gcClock s.head) trivial⟩
  | gcClock head =>
    simp only
    split_ifs with expired
    · exact ⟨_, rfl, place, h.goto (p := .gcStrong head (units s.clock))
        ⟨units_mul_le s.clock, expired⟩⟩
    · exact ⟨_, rfl, place, h.goto trivial⟩
  | gcStrong head reading =>
    rw [at_] at careful
    exact ⟨_, rfl, h.gcStrong at_ careful⟩
  | deleteList node =>
    obtain ⟨s', hs, placed⟩ := h.deleteList at_
    exact ⟨s', hs, place, placed⟩

theorem Placed.step (h : s.Placed place) {m : Tid × Move T} (hs : s.step m = some s')
    (careful : s.Careful m s') : ∃ place', s'.Placed place' := by
  obtain ⟨t, m⟩ := m
  cases m with
  | pass time =>
    cases hs
    exact ⟨place, h.pass time⟩
  | retire data address =>
    simp only [State.step] at hs
    split at hs
    · exact h.create hs
    · cases hs
  | gc =>
    simp only [State.step] at hs
    split at hs
    · cases hs
      exact ⟨place, h.goto (p := .gcLoad) trivial⟩
    · cases hs
  | next spurious =>
    have busy : s.phase t ≠ .idle := by
      intro idle
      rw [State.step, State.next, idle] at hs
      cases hs
    obtain ⟨s'', hs', placed⟩ := h.next busy careful
    rw [State.step, hs'] at hs
    cases hs
    exact placed

omit [DecidableEq Tid] in
theorem placed_start (clock : Nat) : ({ clock } : State Tid T).Placed fun _ => .listed where
  head := Or.inl rfl
  listed := by
    simp only [Listed, getNode_zero]
    exact .null
  covers ne := absurd getNode_zero ne
  knows t := trivial
  deleted d mem := by cases mem

theorem placed_of_reach (h : (machine Tid T).Reach Careful s) : ∃ place, s.Placed place := by
  refine h.inv (P := fun s => ∃ place, s.Placed place) ?_ ?_
  · rintro s ⟨clock, rfl⟩
    exact ⟨_, placed_start clock⟩
  · rintro s m s' ⟨place, placed⟩ hs careful
    exact placed.step hs careful

/-- In every run under the condition an element is deleted at least one unit after it was passed
to `retire`. -/
theorem cooled_of_reach (h : (machine Tid T).Reach Careful s) :
    ∀ d ∈ s.deleted, d.retired + timeUnit ≤ d.time := by
  obtain ⟨place, placed⟩ := placed_of_reach h
  exact placed.deleted

theorem start_at (clock : Nat) : (machine Tid T).start { clock } := ⟨clock, rfl⟩

/-- Two threads retire an element each; `gc` deletes both after more than three units. -/
def retireBoth : List (Bool × Move Nat) :=
  [(false, .retire 1 16), (false, .next false), (false, .next false), (false, .next false),
    (false, .next false), (true, .retire 2 32), (true, .next false), (true, .next false),
    (true, .next false), (true, .pass 200000000000), (true, .gc), (true, .next false),
    (true, .next false), (true, .next false), (true, .next false), (true, .next false)]

theorem cooled_of_reach_retireBoth : ∃ s : State Bool Nat,
    (machine Bool Nat).run { clock := 6400000000000 } retireBoth = some s ∧
      s.deleted.map Deletion.data = [1, 2] ∧
      ∀ d ∈ s.deleted, d.retired + timeUnit ≤ d.time := by
  have along : (machine Bool Nat).Along Careful { clock := 6400000000000 } retireBoth := by
    decide +kernel
  have both : ((machine Bool Nat).run { clock := 6400000000000 } retireBoth).map
      (fun s => s.deleted.map Deletion.data) = some [1, 2] := by decide +kernel
  obtain ⟨s, run, reach, data⟩ := (Machine.Reach.start (start_at _)).of_along_seen along both
  exact ⟨s, run, data, cooled_of_reach reach⟩

/-- A thread reads the clock and is slow; five units later another one retires an element; the
first one pushes its node, with the old timestamp, in front of it, and `gc` deletes both. -/
def pushLate : List (Bool × Move Nat) :=
  [(false, .retire 1 16), (false, .next false), (false, .next false), (true, .pass 320000000000),
    (true, .retire 2 32), (true, .next false), (true, .next false), (true, .next false),
    (true, .next false), (false, .next false), (false, .next false), (true, .gc),
    (true, .next false), (true, .next false), (true, .next false), (true, .next false),
    (true, .next false)]

/-- An element is deleted at the time at which it was passed to `retire`. -/
theorem not_cooled_pushLate : ∃ s : State Bool Nat, (machine Bool Nat).Reach Machine.free s ∧
    ∃ d ∈ s.deleted, d.data = 2 ∧ d.time = d.retired ∧ ¬d.retired + timeUnit ≤ d.time := by
  have seen : ((machine Bool Nat).run { clock := 6400000000000 } pushLate).map
      (fun s => s.deleted.map fun d => (d.data, d.retired, d.time)) =
      some [(2, 6720000000000, 6720000000000), (1, 6400000000000, 6720000000000)] := by
    decide +kernel
  obtain ⟨s, run, deleted⟩ := Option.map_eq_some_iff.mp seen
  have mem : (2, 6720000000000, 6720000000000) ∈
      s.deleted.map fun d => (d.data, d.retired, d.time) := by
    rw [deleted]
    exact List.mem_cons_self
  obtain ⟨d, here, same⟩ := List.mem_map.mp mem
  simp only [Prod.mk.injEq] at same
  obtain ⟨data, retired, time⟩ := same
  refine ⟨s, Machine.Reach.of_run (.start (start_at _)) run, d, here, data, time.trans retired.symm,
    ?_⟩
  rw [retired, time]
  decide

end State

end Fuxi.Base.RetireList
