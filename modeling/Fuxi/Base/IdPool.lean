import Fuxi.Base.RteRing.Fifo
import Fuxi.Base.RteRing.Invariant
import Fuxi.Lib.Ownership

/-!
# Pools of ids in a ring

`FlatObjectQueue` and `ExtentMetadata` keep the ids of their free items in an
`RteRing` and call `DoDequeue` and `DoEnqueue` with one id and with the default flags
`is_sc = true` and `is_sp = true`. This module follows the ids through the calls of
any number of threads. Every id sits in one place as long as the plain stores of the
single path are made where the multi path would make them.
-/

namespace Fuxi.Base.IdPool

open Lib RteRing

variable {Tid α : Type*}

/-- The ring of free ids and the ids that each caller holds. -/
structure State (Tid α : Type*) where
  ring : RteRing.State Tid α
  held : Tid → List α

/-- `DoDequeue(&id, 1, nullptr)`; `blank` is the initial value of the local `id`. -/
def takeCall (blank : α) : Call α := ⟨.cons, 1, fun _ => blank, true⟩

/-- `DoEnqueue(&id, 1, nullptr)`. -/
def giveCall (id : α) : Call α := ⟨.prod, 1, fun _ => id, true⟩

/-- A caller starts to take an id, gives back an id that it holds, or goes on. -/
inductive Move (α : Type*)
  | take
  | give (id : α)
  | step

/-- The id that a call which has just returned hands to its caller. -/
def received : Pc α → List α
  | .returned c moved _ => if c.side = .cons ∧ moved ≠ 0 then [c.table 0] else []
  | _ => []

section Step

variable [DecidableEq Tid] [DecidableEq α]

/-- One step of thread `m.1`. A caller that gives an id back no longer holds it, also
when the range check `accepts` of the pool rejects the id. -/
def State.step (blank : α) (accepts : α → Bool) (s : State Tid α) (m : Tid × Move α) :
    Option (State Tid α) :=
  match m.2 with
  | .take => (s.ring.enter m.1 (takeCall blank)).map fun r => { s with ring := r }
  | .give id =>
    if id ∈ s.held m.1 then
      (s.ring.enter m.1 (giveCall id)).map fun r =>
        ⟨if accepts id then r else s.ring, Function.update s.held m.1 ((s.held m.1).erase id)⟩
    else none
  | .step =>
    (s.ring.advance m.1).map fun r =>
      ⟨r, Function.update s.held m.1 (received (r.pc m.1) ++ s.held m.1)⟩

end Step

/-! ## Filling the ring -/

/-- The loop that enqueues the ids one by one; the second part lists those for which
`DoEnqueue` has returned 1. -/
def fill : RteRing α → List α → RteRing α × List α
  | r, [] => (r, [])
  | r, id :: ids =>
    let put := r.doEnqueue (fun _ => id) 1
    let rest := fill put.1 ids
    (rest.1, if put.2.2.1 = 1 then id :: rest.2 else rest.2)

/-- A ring that has been filled with `ids` and used by nobody else. -/
structure Stocked (r : RteRing α) (ids : List α) : Prop where
  sized : r.WellSized
  fits : ids.length ≤ r.size
  prod : r.prod = ⟨ids.length, ids.length⟩
  cons : r.cons = ⟨0, 0⟩
  slots : ∀ i (h : i < ids.length), r.storage i = ids[i]

/-- A ring that has just been initialised holds no ids. -/
theorem stocked_init (zero : α) (objectNum : Nat) (isSp isSc : Bool) :
    Stocked (RteRing.init zero objectNum isSp isSc) [] :=
  ⟨init_wellSized .., Nat.zero_le _, rfl, rfl, fun i h => absurd h (Nat.not_lt_zero i)⟩

/-- Enqueueing one id by an otherwise unused ring. -/
theorem Stocked.doEnqueue {r : RteRing α} {ids : List α} (h : Stocked r ids) (id : α) :
    if ids.length < r.size then
      (r.doEnqueue (fun _ => id) 1).2.2.1 = 1 ∧
        Stocked (r.doEnqueue (fun _ => id) 1).1 (ids ++ [id]) ∧
          (r.doEnqueue (fun _ => id) 1).1.size = r.size
    else (r.doEnqueue (fun _ => id) 1).2.2.1 = 0 ∧ (r.doEnqueue (fun _ => id) 1).1 = r := by
  have hsize := h.sized.size_le
  have hcap := h.sized.capacity_eq
  have fits := h.fits
  have room : r.entries .prod (r.ht .prod).head = r.size - ids.length := by
    simp only [entries, ht, h.prod, h.cons]
    rw [Nat.add_zero, hcap, sub32_eq fits (by omega)]
  split_ifs with hlt
  · have hslots := h.sized.schedule_eq (by omega) ids.length (n := 1) (by omega)
    have some : ¬(1 > r.size - ids.length ∨ 1 = 0) := by omega
    have eq : r.doEnqueue (fun _ => id) 1 =
        (((r.setHead .prod (ids.length + 1)).setStorage
          (Function.update r.storage ids.length id)).setTail .prod (ids.length + 1),
          fun _ => id, 1, r.size - ids.length - 1) := by
      have head : (r.ht .prod).head = ids.length := by simp [ht, h.prod]
      simp only [RteRing.doEnqueue, deal, room, some, if_false]
      simp [head, hslots, copyOne, Nat.mod_eq_of_lt hlt]
    rw [eq]
    refine ⟨rfl, ⟨⟨by simpa using hcap, by simpa using h.sized.shape⟩, ?_, ?_, ?_, ?_⟩, by simp⟩
    · simp; omega
    · simp [setTail, setHead, setHt, setStorage, ht]
    · exact h.cons
    · intro i hi
      rw [List.length_append, List.length_singleton] at hi
      simp only [setTail_storage, setStorage_storage]
      by_cases last : i = ids.length
      · subst last; simp
      · rw [Function.update_of_ne last, h.slots i (by omega), List.getElem_append_left]
  · have none : r.size - ids.length = 0 := by omega
    simp [RteRing.doEnqueue, deal, room, none]

/-- The loop stocks the ring with as many ids as it has slots. -/
theorem Stocked.fill {r : RteRing α} {ids : List α} (h : Stocked r ids) (more : List α) :
    Stocked (fill r more).1 (ids ++ (fill r more).2) ∧ (IdPool.fill r more).1.size = r.size ∧
      (IdPool.fill r more).2 = more.take (r.size - ids.length) := by
  induction more generalizing r ids with
  | nil => simpa [IdPool.fill] using h
  | cons id rest ih =>
    have one := h.doEnqueue id
    simp only [IdPool.fill]
    split_ifs at one with hlt
    · obtain ⟨ret, stocked, size⟩ := one
      obtain ⟨h1, h2, h3⟩ := ih stocked
      rw [if_pos ret, h2, size, h3]
      refine ⟨?_, rfl, ?_⟩
      · rw [h3] at h1; simpa [List.append_assoc, size] using h1
      · rw [size, List.length_append, List.length_singleton,
          show r.size - ids.length = r.size - (ids.length + 1) + 1 by omega, List.take_succ_cons]
    · obtain ⟨ret, same⟩ := one
      obtain ⟨h1, h2, h3⟩ := ih h
      rw [ret, if_neg (by decide), same]
      refine ⟨h1, h2, ?_⟩
      rw [h3, show r.size - ids.length = 0 by omega]
      simp

theorem Stocked.fill_nil {r : RteRing α} (h : Stocked r []) (more : List α) :
    Stocked (IdPool.fill r more).1 (IdPool.fill r more).2 := by
  have := (h.fill more).1
  rwa [List.nil_append] at this

/-- A ring that has been stocked and not used since. -/
theorem Stocked.holds {r : RteRing α} {ids : List α} (h : Stocked r ids)
    (pos : 0 < r.size) : r.Holds ids := by
  have prod := h.prod
  have cons := h.cons
  refine ⟨h.sized, pos, h.fits, by rw [prod], by rw [cons], by rw [prod, cons, Nat.zero_add],
    fun i hi => ?_⟩
  have fits := h.fits
  rw [cons, Nat.zero_add, Nat.mod_eq_of_lt (by omega)]
  exact h.slots i hi

/-- Nobody has used the ring yet, which holds the listed ids. -/
def stocked (Tid : Type*) (stock : RteRing α × List α) : State Tid α where
  ring :=
    { ring := stock.1
      pc := fun _ => .idle
      hist := { enq := stock.2, copiedIn := List.range stock.2.length } }
  held := fun _ => []

/-- The callers of a pool that has been initialised with `stock`. -/
def machine [DecidableEq Tid] [DecidableEq α] (blank : α) (accepts : α → Bool)
    (stock : RteRing α × List α) : Machine (State Tid α) (Tid × Move α) where
  start s := s = stocked Tid stock
  step := State.step blank accepts

/-- The callers of a stocked ring start with its invariant. -/
theorem Stocked.inv {r : RteRing α} {ids : List α} (h : Stocked r ids) :
    RteRing.Inv (stocked Tid (r, ids)).ring := by
  have prod : r.ht .prod = ⟨ids.length, ids.length⟩ := h.prod
  have cons : r.ht .cons = ⟨0, 0⟩ := h.cons
  have fits := h.fits
  have cap := h.sized.capacity_eq
  refine ⟨h.sized, ?_, ?_, ?_, fun t => trivial, ?_, ?_, ?_, ?_, ?_, List.Pairwise.nil, ?_⟩
  · intro σ; cases σ <;> simp [stocked, prod, cons]
  · intro σ; cases σ <;> simp only [stocked, limit, prod, cons] <;> omega
  · intro σ; cases σ <;> simp [stocked, prod, cons, History.claimed]
  · intro t u k l hk; cases hk
  · intro σ p h1 h2
    cases σ <;> simp only [stocked, prod, cons] at h1 h2 <;> omega
  · intro σ p hp
    cases σ <;> simp [stocked, prod, History.copied] at hp ⊢
    exact hp
  · intro σ p hp
    cases σ <;> simp [stocked, prod, cons, History.copied] at hp ⊢
    exact hp
  · intro p _ hp
    have lt : p < ids.length := by simpa [stocked, History.copied] using hp
    simp only [stocked]
    rw [Nat.mod_eq_of_lt (by omega), h.slots p lt, List.getElem?_eq_getElem lt]
  · intro r hr; simp [stocked] at hr

end Fuxi.Base.IdPool
