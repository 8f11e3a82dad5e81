import Mathlib.Data.List.GetD
import Mathlib.Data.List.Range
import Fuxi.Base.ConcurrentVector
import Fuxi.Lib.Ownership

/-!
# A vector grows safely

Every table is a prefix of the tables after it, since a table is only replaced while it is the
one that the new table was copied from. Every block sits in one place: the tables, the new
table of a thread, or the list of deleted blocks.
-/

namespace Fuxi.Base.ConcurrentVector

open Lib

variable {Tid : Type*}

/-- The blocks that a thread has created for the table that it prepares. -/
def Pc.created : Pc → List Nat
  | .idle => []
  | .exchange _ _ blockNum newBlocks => newBlocks.drop blockNum

/-- Where a block is. -/
inductive Place (Tid : Type*)
  | published
  | prepared (t : Tid)
  | deleted

namespace State

def At (s : State Tid) : Place Tid → Nat → Prop
  | .published, b => b ∈ s.table s.blockTable
  | .prepared t, b => b ∈ (s.pc t).created
  | .deleted, b => b ∈ s.deleted

/-- What a reference to the element of an index refers to: its block and its offset there, or
nothing when the table ends before. -/
def element (m : Meta) (s : State Tid) (p index : Nat) : Option (Nat × Nat) :=
  (s.table p)[m.blockIndex index]?.map fun b => (b, m.blockOffset index)

/-- What the threads can rely on, whatever they have asked for. -/
structure Safe (m : Meta) (s : State Tid) : Prop where
  latest : s.blockTable + 1 = s.tables.length
  grows : s.tables.Pairwise fun T U => T <+: U ∧ T.length < U.length
  retired : s.retired = (List.range s.blockTable).reverse
  returned : ∀ r ∈ s.returned, r.2 < s.tables.length ∧
    r.1.expectBlockNum m ≤ (s.table r.2).length
  stays : ∀ p q, p ≤ q → q < s.tables.length → ∀ index x,
    s.element m p index = some x → s.element m q index = some x
  kept : ∀ T ∈ s.tables, ∀ b ∈ T, b ∉ s.deleted
  once : ∀ b < s.created, (∀ T ∈ s.tables, b ∉ T) →
    (∃ t, b ∈ (s.pc t).created) ∧ b ∉ s.deleted ∨
      (∀ t, b ∉ (s.pc t).created) ∧ s.deleted.count b = 1

/-! ## The invariant -/

/-- What a thread that prepares a table knows. -/
def Knows (m : Meta) (s : State Tid) : Pc → Prop
  | .idle => True
  | .exchange c p blockNum newBlocks =>
    p < s.tables.length ∧ blockNum = (s.table p).length ∧ blockNum < newBlocks.length ∧
      newBlocks.length = c.expectBlockNum m ∧ s.table p <+: newBlocks ∧
        (newBlocks.drop blockNum).Nodup

structure Inv (m : Meta) (s : State Tid) : Prop where
  latest : s.blockTable + 1 = s.tables.length
  grows : s.tables.Pairwise fun T U => T <+: U ∧ T.length < U.length
  small : ∀ T ∈ s.tables, T.length < 4294967296
  retired : s.retired = (List.range s.blockTable).reverse
  returned : ∀ r ∈ s.returned, r.2 < s.tables.length ∧
    r.1.expectBlockNum m ≤ (s.table r.2).length
  knows : ∀ t, s.Knows m (s.pc t)
  owned : Owned (List.range s.created) s.At
  nodup : (s.table s.blockTable).Nodup
  deletedOnce : s.deleted.Nodup

theorem inv_start (m : Meta) : ({} : State Tid).Inv m where
  latest := rfl
  grows := List.pairwise_singleton _ _
  small := by simp
  retired := rfl
  returned := by simp
  knows := fun _ => trivial
  owned := by
    refine ⟨?_, ?_⟩
    · intro π ρ x hπ
      cases π <;> simp [At, table, Pc.created] at hπ
    · intro x
      refine ⟨by simp, ?_⟩
      rintro ⟨π, hπ⟩
      cases π <;> simp [At, table, Pc.created] at hπ
  nodup := by simp [table]
  deletedOnce := List.nodup_nil

section Tables

variable {m : Meta} {s : State Tid} {p : Nat}

theorem table_eq (h : p < s.tables.length) : s.tables[p]? = some (s.table p) := by
  rw [table, List.getD_eq_getElem _ _ h, List.getElem?_eq_getElem h]

theorem table_mem (h : p < s.tables.length) : s.table p ∈ s.tables :=
  List.mem_of_getElem? (table_eq h)

/-- A table is a prefix of every later one. -/
theorem Inv.prefix_of_le (h : s.Inv m) {q : Nat} (le : p ≤ q) (lt : q < s.tables.length) :
    s.table p <+: s.table q := by
  obtain rfl | before := Nat.eq_or_lt_of_le le
  · exact List.prefix_rfl
  · have hp : p < s.tables.length := before.trans lt
    have := List.pairwise_iff_getElem.mp h.grows p q hp lt before
    simp only [table, List.getD_eq_getElem _ _ hp, List.getD_eq_getElem _ _ lt]
    exact this.1

theorem Inv.latest_lt (h : s.Inv m) : s.blockTable < s.tables.length := by
  have := h.latest
  omega

theorem Inv.prefix_latest (h : s.Inv m) {T : List Nat} (mem : T ∈ s.tables) :
    T <+: s.table s.blockTable := by
  obtain ⟨p, lt, rfl⟩ := List.getElem_of_mem mem
  have latest := h.latest
  have := h.prefix_of_le (p := p) (q := s.blockTable) (by omega) h.latest_lt
  rwa [table, List.getD_eq_getElem _ _ lt] at this

end Tables

/-! ## The steps -/

section Steps

variable [DecidableEq Tid] {m : Meta} {s : State Tid} {t : Tid} {c : Call}

@[simp] theorem goto_table (s : State Tid) (t : Tid) (p : Pc) (q : Nat) :
    (s.goto t p).table q = s.table q := rfl

/-- Only the thread that moves has to know something new. -/
theorem knows_goto {p : Pc} (own : s.Knows m p) (others : ∀ u, s.Knows m (s.pc u)) (u : Tid) :
    s.Knows m ((s.goto t p).pc u) :=
  (Function.forall_update_iff s.pc fun _ q => s.Knows m q).mpr ⟨own, fun u _ => others u⟩ u

/-- A call returns a table that is large enough. -/
theorem Inv.ret (h : s.Inv m) (idle : s.pc t = .idle) {p : Nat} (lt : p < s.tables.length)
    (enough : c.expectBlockNum m ≤ (s.table p).length) : (s.ret t c p).Inv m := by
  have pc : (s.ret t c p).pc = s.pc := by
    rw [State.ret, goto, ← idle, Function.update_eq_self]
  refine ⟨h.latest, h.grows, h.small, h.retired, ?_, ?_, ?_, h.nodup, h.deletedOnce⟩
  · exact List.forall_mem_cons.mpr ⟨⟨lt, enough⟩, h.returned⟩
  · rw [pc]
    exact h.knows
  · refine h.owned.congr fun π b => ?_
    cases π with
    | prepared u => simp only [At, pc]
    | published => rfl
    | deleted => rfl

/-- A thread creates the blocks that its new table needs. -/
theorem Inv.prepare (h : s.Inv m) (idle : s.pc t = .idle) {p : Nat} (lt : p < s.tables.length)
    (few : (s.table p).length < c.expectBlockNum m) : (s.prepare m t c p).Inv m := by
  refine ⟨h.latest, h.grows, h.small, h.retired, h.returned, knows_goto ?_ h.knows, ?_, h.nodup,
    h.deletedOnce⟩
  · refine ⟨lt, rfl, ?_, ?_, List.prefix_append _ _, ?_⟩
    · rw [List.length_append, List.length_range']
      omega
    · rw [List.length_append, List.length_range']
      omega
    · rw [List.drop_left]
      exact List.nodup_range'
  · refine h.owned.extend (.prepared t)
      (List.range' s.created (c.expectBlockNum m - (s.table p).length)) ?_ ?_ ?_
    · intro b hb
      rw [List.mem_range'_1] at hb
      rw [List.mem_range]
      omega
    · intro b
      simp only [State.prepare, List.mem_range, List.mem_range'_1]
      omega
    · intro π b
      cases π with
      | published => simp [At, State.prepare, table, goto]
      | deleted => simp [At, State.prepare, goto]
      | prepared u =>
        by_cases e : u = t
        · subst e
          simp [At, State.prepare, goto, idle, Pc.created]
        · simp [At, State.prepare, goto, e]

theorem Inv.qualify (h : s.Inv m) (idle : s.pc t = .idle) : (s.qualify m t c).Inv m := by
  unfold State.qualify
  split_ifs with enough
  · exact h.ret idle h.latest_lt enough
  · exact h.prepare idle h.latest_lt (not_le.mp enough)

variable {p blockNum : Nat} {newBlocks : List Nat}

/-- A thread that loses deletes what it has created. -/
theorem Inv.discard (h : s.Inv m) (at_ : s.pc t = .exchange c p blockNum newBlocks) :
    (s.discard t blockNum newBlocks).Inv m := by
  have created : (s.pc t).created = newBlocks.drop blockNum := by rw [at_]; rfl
  have knows := h.knows t
  rw [at_] at knows
  refine ⟨h.latest, h.grows, h.small, h.retired, h.returned, knows_goto trivial h.knows, ?_,
    h.nodup, ?_⟩
  · refine h.owned.merge (a := .prepared t) (b := .deleted) (fun b => ?_) (fun b => ?_) ?_
    · simp [At, State.discard, goto, Pc.created]
    · simp only [At, created, State.discard, List.mem_append]
      exact or_comm
    · intro π ne ne' b
      cases π with
      | published => rfl
      | deleted => exact absurd rfl ne'
      | prepared u =>
        have e : u ≠ t := fun e => ne (e ▸ rfl)
        simp [At, State.discard, goto, e]
  · refine List.nodup_append.mpr ⟨knows.2.2.2.2.2, h.deletedOnce, ?_⟩
    rintro b hb _ hb' rfl
    have := h.owned.unique (π := .prepared t) (ρ := .deleted) (x := b)
      (by rw [At, created]; exact hb) hb'
    cases this

theorem publish_table_of_lt {p : Nat} (lt : p < s.tables.length) :
    (s.publish t newBlocks).table p = s.table p :=
  List.getD_append _ _ _ _ lt

theorem publish_table : (s.publish t newBlocks).table s.tables.length = newBlocks := by
  simp [State.publish, table]

/-- A new table changes nothing about the tables that a thread has copied from. -/
theorem Knows.publish {q : Pc} (h : s.Knows m q) : (s.publish t newBlocks).Knows m q := by
  cases q with
  | idle => trivial
  | exchange c p n blocks =>
    obtain ⟨lt, rest⟩ := h
    rw [Knows, publish_table_of_lt lt]
    exact ⟨lt.trans_le (by simp [State.publish]), rest⟩

omit [DecidableEq Tid] in
/-- What a thread has prepared is the copied table and the created blocks. -/
theorem Knows.eq_append (h : s.Knows m (.exchange c p blockNum newBlocks)) :
    newBlocks = s.table p ++ newBlocks.drop blockNum := by
  obtain ⟨-, rfl, -, -, copied, -⟩ := h
  conv_lhs => rw [← List.take_append_drop (s.table p).length newBlocks]
  rw [← List.prefix_iff_eq_take.mp copied]

/-- A thread that wins appends what it has created to the latest table. -/
theorem Inv.publish (h : s.Inv m)
    (at_ : s.pc t = .exchange c s.blockTable blockNum newBlocks) :
    let s' := s.publish t newBlocks
    s'.Inv m ∧ s'.table s.tables.length = newBlocks ∧ s.tables.length < s'.tables.length ∧
      newBlocks.length = c.expectBlockNum m := by
  have created : (s.pc t).created = newBlocks.drop blockNum := by rw [at_]; rfl
  have knows := h.knows t
  rw [at_] at knows
  have whole := knows.eq_append
  obtain ⟨-, rfl, longer, length, copied, nodup⟩ := knows
  have latest : (s.publish t newBlocks).table (s.publish t newBlocks).blockTable = newBlocks :=
    publish_table
  have others : ∀ u, s.Knows m ((s.goto t .idle).pc u) := knows_goto trivial h.knows
  refine ⟨⟨?_, ?_, ?_, ?_, fun r hr => ?_, fun u => (others u).publish, ?_, ?_,
    h.deletedOnce⟩, publish_table, ?_, length⟩
  · simp [State.publish]
  · refine List.pairwise_append.mpr ⟨h.grows, List.pairwise_singleton _ _, fun T hT U hU => ?_⟩
    obtain rfl := List.mem_singleton.mp hU
    have before := h.prefix_latest hT
    exact ⟨before.trans copied, before.length_le.trans_lt longer⟩
  · refine List.forall_mem_append.mpr ⟨h.small, ?_⟩
    simpa [length] using expectBlockNum_lt m c
  · have last := h.latest
    simp only [State.publish, h.retired, ← last, List.range_succ, List.reverse_append]
    rfl
  · obtain ⟨lt, enough⟩ := h.returned r hr
    rw [publish_table_of_lt lt]
    exact ⟨lt.trans_le (by simp [State.publish]), enough⟩
  · refine h.owned.merge (a := .prepared t) (b := .published) (fun b => ?_) (fun b => ?_) ?_
    · simp [At, State.publish, goto, Pc.created]
    · simp only [At, latest, created]
      conv_lhs => rw [whole]
      exact List.mem_append
    · intro π ne ne' b
      cases π with
      | published => exact absurd rfl ne'
      | deleted => rfl
      | prepared u =>
        have e : u ≠ t := fun e => ne (e ▸ rfl)
        simp [At, State.publish, goto, e]
  · rw [latest, whole]
    refine List.nodup_append.mpr ⟨h.nodup, nodup, ?_⟩
    rintro b hb _ hb' rfl
    have := h.owned.unique (π := .published) (ρ := .prepared t) (x := b) hb
      (by rw [At, created]; exact hb')
    cases this
  · simp [State.publish]

theorem Inv.step (h : s.Inv m) {i : Tid × Move} {s' : State Tid} (move : s.step m i = some s') :
    s'.Inv m := by
  obtain ⟨t, c | -⟩ := i
  · simp only [State.step] at move
    split at move
    case h_1 idle =>
      cases move
      exact h.qualify idle
    case h_2 => cases move
  · simp only [State.step] at move
    split at move
    case h_1 => cases move
    case h_2 c p n newBlocks at_ =>
      split_ifs at move with latest
      · cases move
        subst latest
        obtain ⟨inv, table, lt, length⟩ := h.publish at_
        exact inv.ret (by simp [State.publish, goto]) lt (by rw [table, length])
      · cases move
        exact (h.discard at_).qualify (by simp [State.discard, goto])

/-- A call that runs alone leaves as many blocks as it needs, and not fewer than before. -/
theorem Inv.alone (h : s.Inv m) (idle : s.pc t = .idle) (c : Call) :
    ∃ moves s', (machine Tid m).run s ((t, .call c) :: moves) = some s' ∧
      s'.pc t = .idle ∧ s'.returned = (c, s'.blockTable) :: s.returned ∧
        (s'.table s'.blockTable).length =
          max (s.table s.blockTable).length (c.expectBlockNum m) := by
  have called : (machine Tid m).step s (t, .call c) = some (s.qualify m t c) := by
    simp [machine, State.step, idle]
  by_cases enough : c.expectBlockNum m ≤ (s.table s.blockTable).length
  · have ret : s.qualify m t c = s.ret t c s.blockTable := if_pos enough
    refine ⟨[], s.ret t c s.blockTable, ?_, ?_, rfl, (Nat.max_eq_left enough).symm⟩
    · rw [Machine.run_cons, called, ret]
      rfl
    · simp [State.ret, goto]
  · have prepare : s.qualify m t c = s.prepare m t c s.blockTable := if_neg enough
    obtain ⟨n, newBlocks, at_⟩ : ∃ n newBlocks, (s.prepare m t c s.blockTable).pc t =
        .exchange c s.blockTable n newBlocks := ⟨_, _, Function.update_self ..⟩
    let s' := ((s.prepare m t c s.blockTable).publish t newBlocks).ret t c s.tables.length
    have exchanged : (machine Tid m).step (s.prepare m t c s.blockTable) (t, .exchange) =
        some s' := by
      simp only [machine, State.step, at_]
      exact if_pos rfl
    obtain ⟨-, table, -, length⟩ := (h.prepare idle h.latest_lt (not_le.mp enough)).publish at_
    refine ⟨[(t, .exchange)], s', ?_, Function.update_self .., rfl, ?_⟩
    · rw [Machine.run_cons, called, prepare, Option.bind_some, Machine.run_cons, exchanged]
      rfl
    · rw [Nat.max_eq_right (by omega), ← length]
      exact congrArg List.length table

end Steps

/-! ## What follows -/

variable {m : Meta} {s : State Tid}

theorem Inv.stays (h : s.Inv m) {p q : Nat} (le : p ≤ q) (lt : q < s.tables.length)
    {index : Nat} {x : Nat × Nat} (found : s.element m p index = some x) :
    s.element m q index = some x := by
  obtain ⟨b, at_, rfl⟩ := Option.map_eq_some_iff.mp found
  obtain ⟨rest, eq⟩ := h.prefix_of_le le lt
  obtain ⟨inside, -⟩ := List.getElem?_eq_some_iff.mp at_
  refine Option.map_eq_some_iff.mpr ⟨b, ?_, rfl⟩
  rw [← eq, List.getElem?_append_left inside, at_]

/-- The latest table has all blocks that have ever been published. -/
theorem Inv.mem_latest (h : s.Inv m) {b : Nat} :
    b ∈ s.table s.blockTable ↔ ∃ T ∈ s.tables, b ∈ T :=
  ⟨fun mem => ⟨_, table_mem h.latest_lt, mem⟩,
    fun ⟨_, published, mem⟩ => (h.prefix_latest published).subset mem⟩

theorem Inv.kept (h : s.Inv m) {b : Nat} (mem : b ∈ s.table s.blockTable) : b ∉ s.deleted := by
  intro gone
  have := h.owned.unique (π := .published) (ρ := .deleted) mem gone
  cases this

theorem Inv.once (h : s.Inv m) {b : Nat} (made : b < s.created)
    (unpublished : b ∉ s.table s.blockTable) :
    (∃ t, b ∈ (s.pc t).created) ∧ b ∉ s.deleted ∨
      (∀ t, b ∉ (s.pc t).created) ∧ s.deleted.count b = 1 := by
  obtain ⟨π, sits⟩ := (h.owned.cover b).mp (List.mem_range.mpr made)
  cases π with
  | published => exact absurd sits unpublished
  | prepared t =>
    refine Or.inl ⟨⟨t, sits⟩, fun gone => ?_⟩
    have := h.owned.unique (ρ := .deleted) sits gone
    cases this
  | deleted =>
    refine Or.inr ⟨fun t held => ?_, List.count_eq_one_of_mem h.deletedOnce sits⟩
    have := h.owned.unique (ρ := .prepared t) sits held
    cases this

theorem Inv.safe (h : s.Inv m) : s.Safe m where
  latest := h.latest
  grows := h.grows
  retired := h.retired
  returned := h.returned
  stays _ _ le lt _ _ := h.stays le lt
  kept T published b mem := h.kept (h.mem_latest.mpr ⟨T, published, mem⟩)
  once b made unpublished := by
    refine h.once made fun mem => ?_
    obtain ⟨T, published, mem⟩ := h.mem_latest.mp mem
    exact unpublished T published mem

end State

section Runs

variable [DecidableEq Tid] {m : Meta} {s : State Tid}

theorem inv_of_reach (h : (machine Tid m).Reach Machine.free s) : s.Inv m :=
  h.inv (fun _ start => start ▸ State.inv_start m) fun _ _ _ inv move _ => inv.step move

/-- However the threads interleave, the tables only grow, no element moves, and every block is
either published or deleted once. A call gets a table that covers what it asks for exactly if
the number of blocks it needs fits into the types that it is computed in. -/
theorem safe_of_reach (h : (machine Tid m).Reach Machine.free s) :
    s.Safe m ∧ ∀ r ∈ s.returned, r.1.Covered m (s.table r.2).length ↔ r.1.Fits m := by
  have inv := inv_of_reach h
  refine ⟨inv.safe, fun r returned => ?_⟩
  obtain ⟨published, enough⟩ := inv.returned r returned
  exact r.1.covered_iff m enough (inv.small _ (State.table_mem published))

end Runs

/-- Two threads need one block and two blocks; the second loses, deletes its two blocks and
comes back with one behind the block of the first. -/
theorem safe_of_reach_race : let m : Meta := ⟨2, by decide⟩
    ∃ s, (machine Bool m).Reach Machine.free s ∧ s.tables = [[], [0], [0, 3]] ∧
      s.deleted = [1, 2] ∧ s.returned = [(.ensure 5, 2), (.ensure 0, 1)] ∧
        (s.Safe m ∧ ∀ r ∈ s.returned, r.1.Covered m (s.table r.2).length ↔ r.1.Fits m) := by
  intro m
  let moves : List (Bool × Move) := [(false, .call (.ensure 0)), (true, .call (.ensure 5)),
    (false, .exchange), (true, .exchange), (true, .exchange)]
  obtain ⟨s, run, tables, deleted, returned⟩ : ∃ s, (machine Bool m).run {} moves = some s ∧
      s.tables = [[], [0], [0, 3]] ∧ s.deleted = [1, 2] ∧
        s.returned = [(.ensure 5, 2), (.ensure 0, 1)] := ⟨_, rfl, rfl, rfl, rfl⟩
  have reach := Machine.Reach.of_run (Machine.Reach.start rfl) run
  exact ⟨s, reach, tables, deleted, returned, safe_of_reach reach⟩

/-- With blocks of one element, the block of index `2 ^ 32 - 1` is the one with the number
`2 ^ 32`, which is `0` in the type of the number: the call gets the empty table. The index
`2 ^ 32` is taken for the index `0`. -/
theorem ensure_uncovered : let m : Meta := ⟨0, by decide⟩
    (∃ s, (machine Bool m).Reach Machine.free s ∧ s.returned = [(.ensure 4294967295, 0)] ∧
      s.table 0 = [] ∧ ¬(Call.ensure 4294967295).Covered m (s.table 0).length) ∧
    ∃ s, (machine Bool m).Reach Machine.free s ∧
      s.returned = [(.ensure 4294967296, 1), (.ensure 0, 1)] ∧
        s.element m 1 4294967296 = some (0, 0) ∧ s.element m 1 0 = some (0, 0) ∧
          ¬(Call.ensure 4294967296).Covered m (s.table 1).length := by
  intro m
  constructor
  · have none : (Call.ensure 4294967295).expectBlockNum m = 0 := by decide
    have move : (machine Bool m).step {} (false, .call (.ensure 4294967295)) =
        some (({} : State Bool).ret false (.ensure 4294967295) 0) := by
      simp [machine, State.step, State.qualify, none]
    refine ⟨_, .step (.start rfl) move trivial, rfl, rfl, ?_⟩
    change ¬4294967295 < 0 * m.blockSize
    simp
  · have one : (Call.ensure 4294967296).expectBlockNum m = 1 := by decide
    obtain ⟨s, run, idle, latest, tables, returned⟩ : ∃ s,
        (machine Bool m).run {} [(false, .call (.ensure 0)), (false, .exchange)] = some s ∧
          s.pc false = .idle ∧ s.blockTable = 1 ∧ s.tables = [[], [0]] ∧
            s.returned = [(.ensure 0, 1)] := ⟨_, rfl, rfl, rfl, rfl, rfl⟩
    have table : s.table 1 = [0] := by simp [State.table, tables]
    have move : (machine Bool m).step s (false, .call (.ensure 4294967296)) =
        some (s.ret false (.ensure 4294967296) 1) := by
      simp [machine, State.step, State.qualify, idle, latest, table, one]
    refine ⟨_, .step (.of_run (.start rfl) run) move trivial, ?_, ?_, ?_, ?_⟩
    · simp [State.ret, State.goto, returned]
    · change (s.table 1)[_]?.map _ = _
      rw [table]
      decide
    · change (s.table 1)[_]?.map _ = _
      rw [table]
      decide
    · change ¬(Call.ensure 4294967296).Covered m (s.table 1).length
      rw [table]
      simp [Call.Covered, Meta.blockSize, m]

end Fuxi.Base.ConcurrentVector
