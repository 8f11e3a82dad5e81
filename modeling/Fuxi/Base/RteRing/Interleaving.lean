import Fuxi.Base.RteRing
import Fuxi.Lib.Machine

/-!
# `RteRing` under interleaving

Any number of threads run `DoEnqueue` and `DoDequeue`. One step of a thread is one
atomic access to a counter or one slot copy, and the steps of different threads
interleave in any order. A history, which no step of the code reads, records the
positions claimed, copied and returned, so that the properties can be stated.
-/

namespace Fuxi.Base.RteRing

open Lib

variable {α Tid : Type*}

/-- The arguments of one call: `obj_table`, `n` and the flag `is_sp` (`is_sc`). -/
structure Call (α : Type*) where
  side : Side
  n : Nat
  table : Nat → α
  single : Bool

/-- A call that has moved the head from `oldHead` to `oldHead + n`. The number `pos`
of positions that its side had claimed before belongs to the history. -/
structure Claim (α : Type*) where
  call : Call α
  oldHead : Nat
  entries : Nat
  pos : Nat

/-- What a thread does next. The last number of `loadTail` and `moveHead` belongs to
the history: how many positions were claimed when the head was read. -/
inductive Pc (α : Type*)
  | idle
  | loadHead (c : Call α)
  | loadTail (c : Call α) (oldHead seen : Nat)
  | moveHead (c : Call α) (oldHead entries seen : Nat)
  | copy (k : Claim α) (done : Nat)
  | waitTail (k : Claim α)
  | storeTail (k : Claim α)
  | returned (c : Call α) (moved rest : Nat)

/-- What has happened so far: the elements of the successful `DoEnqueue` claims in
claim order, the number of positions claimed by `DoDequeue`, the positions copied
into and out of the ring, and the first position, the count and the `obj_table` of
every successful `DoDequeue` that has returned (newest first). -/
structure History (α : Type*) where
  enq : List α := []
  taken : Nat := 0
  copiedIn : List Nat := []
  copiedOut : List Nat := []
  returned : List (Nat × Nat × (Nat → α)) := []

namespace History

/-- The number of positions that one side has claimed. -/
def claimed (h : History α) : Side → Nat
  | .prod => h.enq.length
  | .cons => h.taken

/-- The positions that one side has copied. -/
def copied (h : History α) : Side → List Nat
  | .prod => h.copiedIn
  | .cons => h.copiedOut

/-- A head has been moved. -/
def claim (h : History α) (c : Call α) : History α :=
  match c.side with
  | .prod => { h with enq := h.enq ++ (List.range c.n).map c.table }
  | .cons => { h with taken := h.taken + c.n }

/-- The element of one position has been copied. -/
def copy (h : History α) (s : Side) (p : Nat) : History α :=
  match s with
  | .prod => { h with copiedIn := p :: h.copiedIn }
  | .cons => { h with copiedOut := p :: h.copiedOut }

/-- A call has published its claim and returns. -/
def finish (h : History α) (k : Claim α) : History α :=
  match k.call.side with
  | .prod => h
  | .cons => { h with returned := (k.pos, k.call.n, k.call.table) :: h.returned }

section Lemmas

variable (h : History α) (c : Call α) (k : Claim α) (σ τ : Side) (p : Nat)

theorem claim_claimed :
    (h.claim c).claimed σ = h.claimed σ + if σ = c.side then c.n else 0 := by
  cases hc : c.side <;> cases σ <;> simp [claim, claimed, hc]

@[simp] theorem claim_copied : (h.claim c).copied σ = h.copied σ := by
  cases hc : c.side <;> cases σ <;> simp [claim, copied, hc]

@[simp] theorem claim_returned : (h.claim c).returned = h.returned := by
  cases hc : c.side <;> simp [claim, hc]

theorem claim_enq_mono {v : α} (hp : h.enq[p]? = some v) : (h.claim c).enq[p]? = some v := by
  cases hc : c.side with
  | prod =>
    obtain ⟨hlt, -⟩ := List.getElem?_eq_some_iff.mp hp
    simp [claim, hc, List.getElem?_append_left hlt, hp]
  | cons => simpa [claim, hc] using hp

/-- A producer claim appends the elements of its table. -/
theorem claim_enq_new (hc : c.side = .prod) {i : Nat} (hi : i < c.n) :
    (h.claim c).enq[h.claimed .prod + i]? = some (c.table i) := by
  simp [claim, claimed, hc, hi]

@[simp] theorem copy_claimed : (h.copy σ p).claimed τ = h.claimed τ := by
  cases σ <;> cases τ <;> rfl

@[simp] theorem copy_enq : (h.copy σ p).enq = h.enq := by cases σ <;> rfl

@[simp] theorem copy_returned : (h.copy σ p).returned = h.returned := by cases σ <;> rfl

theorem copy_copied :
    (h.copy σ p).copied τ = if τ = σ then p :: h.copied τ else h.copied τ := by
  cases σ <;> cases τ <;> rfl

/-- What has been copied stays copied. -/
theorem mem_copied_copy {q : Nat} (hq : q ∈ h.copied τ) : q ∈ (h.copy σ p).copied τ := by
  rw [copy_copied]
  split_ifs
  · exact List.mem_cons_of_mem _ hq
  · exact hq

@[simp] theorem finish_claimed : (h.finish k).claimed σ = h.claimed σ := by
  cases hc : k.call.side <;> cases σ <;> simp [finish, claimed, hc]

@[simp] theorem finish_copied : (h.finish k).copied σ = h.copied σ := by
  cases hc : k.call.side <;> cases σ <;> simp [finish, copied, hc]

@[simp] theorem finish_enq : (h.finish k).enq = h.enq := by
  cases hc : k.call.side <;> simp [finish, hc]

end Lemmas

end History

structure State (Tid α : Type*) where
  ring : RteRing α
  pc : Tid → Pc α
  hist : History α

/-- A thread enters a call or performs its next access. -/
inductive Move (α : Type*)
  | call (c : Call α)
  | step

/-- `UpdateTail` is entered: the single path stores at once, the multi path waits. -/
def Claim.updateTail (k : Claim α) : Pc α := if k.call.single then .storeTail k else .waitTail k

/-- The claim after one assignment of its copy loop. -/
def Claim.copied (k : Claim α) (storage : Nat → α) (e : Nat × Nat) : Claim α :=
  { k with call := { k.call with table := (copyOne k.call.side e storage k.call.table).2 } }

section Copied

variable (k : Claim α) (storage : Nat → α) (e : Nat × Nat)

@[simp] theorem Claim.copied_pos : (k.copied storage e).pos = k.pos := rfl
@[simp] theorem Claim.copied_oldHead : (k.copied storage e).oldHead = k.oldHead := rfl
@[simp] theorem Claim.copied_n : (k.copied storage e).call.n = k.call.n := rfl
@[simp] theorem Claim.copied_side : (k.copied storage e).call.side = k.call.side := rfl

end Copied

namespace State

variable [DecidableEq Tid]

/-- Thread `t` proceeds to `p`. -/
def goto (s : State Tid α) (t : Tid) (p : Pc α) : State Tid α :=
  { s with pc := Function.update s.pc t p }

/-- The next access of thread `t`. -/
def advance (s : State Tid α) (t : Tid) : Option (State Tid α) :=
  match s.pc t with
  | .idle => none
  | .loadHead c =>
    some (s.goto t (.loadTail c (s.ring.ht c.side).head (s.hist.claimed c.side)))
  | .loadTail c oldHead seen =>
    let entries := s.ring.entries c.side oldHead
    if c.n > entries ∨ c.n = 0 then some (s.goto t (.returned c 0 entries))
    else some (s.goto t (.moveHead c oldHead entries seen))
  | .moveHead c oldHead entries _ =>
    if c.single ∨ u32 (s.ring.ht c.side).head = u32 oldHead then
      some
        { ring := s.ring.setHead c.side (oldHead + c.n)
          pc := Function.update s.pc t
            (.copy ⟨c, oldHead, entries, s.hist.claimed c.side⟩ 0)
          hist := s.hist.claim c }
    else
      some (s.goto t (.loadTail c (s.ring.ht c.side).head (s.hist.claimed c.side)))
  | .copy k done =>
    let slots := s.ring.schedule k.oldHead k.call.n
    match slots[done]? with
    | none => some (s.goto t (k.updateTail))
    | some e =>
      let k' := k.copied s.ring.storage e
      some
        { ring := s.ring.setStorage (copyOne k.call.side e s.ring.storage k.call.table).1
          pc := Function.update s.pc t
            (if done + 1 < slots.length then .copy k' (done + 1) else k'.updateTail)
          hist := s.hist.copy k.call.side (k.pos + e.2) }
  | .waitTail k =>
    if u32 (s.ring.ht k.call.side).tail ≠ u32 k.oldHead then some (s.goto t (.waitTail k))
    else some (s.goto t (.storeTail k))
  | .storeTail k =>
    some
      { ring := s.ring.setTail k.call.side (k.oldHead + k.call.n)
        pc := Function.update s.pc t (.returned k.call k.call.n (k.entries - k.call.n))
        hist := s.hist.finish k }
  | .returned _ _ _ => none

/-- A thread that is in no call enters one. -/
def enter (s : State Tid α) (t : Tid) (c : Call α) : Option (State Tid α) :=
  match s.pc t with
  | .idle | .returned _ _ _ => some (s.goto t (.loadHead c))
  | _ => none

def step (s : State Tid α) : Tid × Move α → Option (State Tid α)
  | (t, .call c) => s.enter t c
  | (t, .step) => s.advance t

end State

/-- No call is running on the ring that `Init` has prepared. -/
def fresh (Tid : Type*) (zero : α) (objectNum : Nat) (isSp isSc : Bool) : State Tid α where
  ring := init zero objectNum isSp isSc
  pc := fun _ => .idle
  hist := {}

/-- The interleavings of any number of threads on a ring of `objectNum` slots. -/
def machine [DecidableEq Tid] (zero : α) (objectNum : Nat) (isSp isSc : Bool) :
    Machine (State Tid α) (Tid × Move α) where
  start s := s = fresh Tid zero objectNum isSp isSc
  step := State.step

/-! ## Running calls and claims -/

namespace Pc

/-- The call that is running. -/
def call? : Pc α → Option (Call α)
  | .idle | .returned _ _ _ => none
  | .loadHead c | .loadTail c _ _ | .moveHead c _ _ _ => some c
  | .copy k _ | .waitTail k | .storeTail k => some k.call

/-- The head that the call has read and not moved yet. -/
def read? : Pc α → Option (Call α × Nat)
  | .loadTail c oldHead _ | .moveHead c oldHead _ _ => some (c, oldHead)
  | .idle | .loadHead _ | .copy _ _ | .waitTail _ | .storeTail _ | .returned _ _ _ => none

/-- The claim that is not published yet. -/
def claim? : Pc α → Option (Claim α)
  | .copy k _ | .waitTail k | .storeTail k => some k
  | .idle | .loadHead _ | .loadTail _ _ _ | .moveHead _ _ _ _ | .returned _ _ _ => none

end Pc

theorem Pc.claim?_of_call? {p : Pc α} (h : p.call? = none) : p.claim? = none := by
  cases p <;> cases h <;> rfl

theorem Pc.call?_of_read? {p : Pc α} {c : Call α} {o : Nat} (h : p.read? = some (c, o)) :
    p.call? = some c := by
  cases p <;> cases h <;> rfl

theorem Pc.call?_of_claim? {p : Pc α} {k : Claim α} (h : p.claim? = some k) :
    p.call? = some k.call := by
  cases p <;> cases h <;> rfl

@[simp] theorem Claim.updateTail_call? (k : Claim α) : k.updateTail.call? = some k.call := by
  unfold updateTail; split_ifs <;> rfl

@[simp] theorem Claim.updateTail_read? (k : Claim α) : k.updateTail.read? = none := by
  unfold updateTail; split_ifs <;> rfl

@[simp] theorem Claim.updateTail_claim? (k : Claim α) : k.updateTail.claim? = some k := by
  unfold updateTail; split_ifs <;> rfl

/-- Two stages of one call: only the contents of the table differ. -/
def Call.Alike (c d : Call α) : Prop := c.side = d.side ∧ c.n = d.n ∧ c.single = d.single

/-- A thread that enters a call loads the head first. -/
theorem State.enter_eq [DecidableEq Tid] {s s' : State Tid α} {t : Tid} {c : Call α}
    (hs : s.enter t c = some s') : s' = s.goto t (.loadHead c) := by
  unfold enter at hs
  split at hs <;> cases hs <;> rfl

/-- Only a thread that is in no call enters one. -/
theorem State.enter_idle [DecidableEq Tid] {s s' : State Tid α} {t : Tid} {c : Call α}
    (hs : s.enter t c = some s') : (s.pc t).call? = none := by
  cases hp : s.pc t <;> simp [enter, hp] at hs <;> rfl

/-- An access changes the program counter of its thread only, and the thread stays in
its call or leaves it. -/
theorem State.advance_pc [DecidableEq Tid] {s s' : State Tid α} {t : Tid}
    (hs : s.advance t = some s') : ∃ p, s'.pc = Function.update s.pc t p ∧
      ∃ c, (s.pc t).call? = some c ∧ ∀ d, p.call? = some d → d.Alike c := by
  have same : ∀ (p : Pc α) (c : Call α), p.call? = some c → ∀ d, p.call? = some d → d.Alike c := by
    intro p c hc d hd
    cases hc.symm.trans hd
    exact ⟨rfl, rfl, rfl⟩
  cases hp : s.pc t with
  | idle => simp [advance, hp] at hs
  | returned c m n => simp [advance, hp] at hs
  | loadHead c =>
    simp only [advance, hp, Option.some.injEq] at hs
    subst hs
    exact ⟨_, rfl, c, rfl, same _ _ rfl⟩
  | loadTail c oldHead seen =>
    simp only [advance, hp] at hs
    split_ifs at hs <;> cases hs
    · exact ⟨_, rfl, c, rfl, fun d hd => by cases hd⟩
    · exact ⟨_, rfl, c, rfl, same _ _ rfl⟩
  | moveHead c oldHead entries seen =>
    simp only [advance, hp] at hs
    split_ifs at hs <;> cases hs <;> exact ⟨_, rfl, c, rfl, same _ _ rfl⟩
  | copy k done =>
    simp only [advance, hp] at hs
    split at hs <;> cases hs
    · exact ⟨_, rfl, k.call, rfl, same _ _ (by simp)⟩
    · refine ⟨_, rfl, k.call, rfl, fun d hd => ?_⟩
      split_ifs at hd
      · cases hd; exact ⟨rfl, rfl, rfl⟩
      · rw [Claim.updateTail_call?] at hd
        cases hd; exact ⟨rfl, rfl, rfl⟩
  | waitTail k =>
    simp only [advance, hp] at hs
    split_ifs at hs <;> cases hs <;> exact ⟨_, rfl, k.call, rfl, same _ _ rfl⟩
  | storeTail k =>
    simp only [advance, hp, Option.some.injEq] at hs
    subst hs
    exact ⟨_, rfl, k.call, rfl, fun d hd => by cases hd⟩

/-- No access changes the size of the ring. -/
theorem State.advance_size [DecidableEq Tid] {s s' : State Tid α} {t : Tid}
    (hs : s.advance t = some s') : s'.ring.size = s.ring.size := by
  cases hp : s.pc t <;> simp only [advance, hp, reduceCtorEq] at hs
  case loadHead => cases hs; rfl
  case loadTail => split_ifs at hs <;> cases hs <;> rfl
  case moveHead => split_ifs at hs <;> cases hs <;> simp [goto]
  case copy => split at hs <;> cases hs <;> simp [goto]
  case waitTail => split_ifs at hs <;> cases hs <;> rfl
  case storeTail => cases hs; simp

/-- An access moves at most the head of the side of its call, and a thread that keeps a
head for later has just read it or knew it before. -/
theorem State.advance_read [DecidableEq Tid] {s s' : State Tid α} {t : Tid}
    (hs : s.advance t = some s') :
    ((∀ σ, (s'.ring.ht σ).head = (s.ring.ht σ).head) ∧
      ∀ c o, (s'.pc t).read? = some (c, o) →
        o = (s.ring.ht c.side).head ∨ (s.pc t).read? = some (c, o)) ∨
    ∃ d, (s.pc t).call? = some d ∧ (s'.pc t).read? = none ∧
      ∀ σ, σ ≠ d.side → (s'.ring.ht σ).head = (s.ring.ht σ).head := by
  cases hp : s.pc t with
  | idle => simp [advance, hp] at hs
  | returned c m n => simp [advance, hp] at hs
  | loadHead c =>
    simp only [advance, hp, Option.some.injEq] at hs
    subst hs
    refine Or.inl ⟨fun σ => rfl, fun d o ho => Or.inl ?_⟩
    simp only [goto, Function.update_self, Pc.read?, Option.some.injEq, Prod.mk.injEq] at ho
    rw [← ho.1, ho.2]
  | loadTail c oldHead seen =>
    simp only [advance, hp] at hs
    split_ifs at hs <;> cases hs
    · refine Or.inl ⟨fun σ => rfl, fun d o ho => ?_⟩
      simp [goto, Pc.read?] at ho
    · refine Or.inl ⟨fun σ => rfl, fun d o ho => Or.inr ?_⟩
      simpa [goto, Pc.read?] using ho
  | moveHead c oldHead entries seen =>
    simp only [advance, hp] at hs
    split_ifs at hs <;> cases hs
    · refine Or.inr ⟨c, rfl, by simp [Pc.read?], fun σ ne => ?_⟩
      simp [setHead_head, ne]
    · refine Or.inl ⟨fun σ => rfl, fun d o ho => Or.inl ?_⟩
      simp only [goto, Function.update_self, Pc.read?, Option.some.injEq, Prod.mk.injEq] at ho
      rw [← ho.1, ho.2]
  | copy k done =>
    refine Or.inl ?_
    simp only [advance, hp] at hs
    split at hs <;> cases hs
    · exact ⟨fun σ => rfl, fun d o ho => by simp [goto] at ho⟩
    · refine ⟨fun σ => by simp, fun d o ho => ?_⟩
      simp only [Function.update_self] at ho
      split_ifs at ho
      · cases ho
      · simp at ho
  | waitTail k =>
    simp only [advance, hp] at hs
    split_ifs at hs <;> cases hs <;>
      exact Or.inl ⟨fun σ => rfl, fun d o ho => by simp [goto, Pc.read?] at ho⟩
  | storeTail k =>
    simp only [advance, hp, Option.some.injEq] at hs
    subst hs
    exact Or.inl ⟨fun σ => by simp, fun d o ho => by simp [Pc.read?] at ho⟩

/-- Positions `[pos, pos + n)` of a claim. -/
def Claim.Holds (k : Claim α) (p : Nat) : Prop := k.pos ≤ p ∧ p < k.pos + k.call.n

/-- The plain stores of the single path come in turn: a head is stored while it still is
what the thread has read, and a tail when the claims before have been published. The
multi path makes sure of both. -/
structure InTurn (s : State Tid α) (t : Tid) : Prop where
  head : ∀ c oldHead entries seen, s.pc t = .moveHead c oldHead entries seen →
    c.single = true → oldHead = (s.ring.ht c.side).head
  tail : ∀ k, s.pc t = .storeTail k → k.call.single = true →
    (s.ring.ht k.call.side).tail = k.oldHead

/-- A compare-exchange comes before `2^32` positions are claimed after the read of
the head it compares with. -/
def Timely (s : State Tid α) (t : Tid) : Prop :=
  ∀ c oldHead entries seen, s.pc t = .moveHead c oldHead entries seen → c.single = false →
    s.hist.claimed c.side < seen + 4294967296

end Fuxi.Base.RteRing
