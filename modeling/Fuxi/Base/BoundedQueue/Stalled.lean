import Fuxi.Base.BoundedQueue.ExactlyOnce

/-!
# Who waits for whom on the queue

A blocking call claims its tickets at once and then waits for their slots, in batches that keep
a slot back until all slots of the part are ready. Still no two calls wait for each other: a part
lies in one round, a pop waits for a push of its own round, and a push for a pop of the round
before. So where all running calls wait for slots that are not ready, each of them has no partner.
-/

namespace Fuxi.Base.BoundedQueue

open Lib

variable {α Tid : Type*}

/-- A call is running. -/
def Pc.running : Pc α → Bool
  | .idle | .returned _ _ => false
  | _ => true

/-- The thread waits for a slot that is not ready. -/
def Pc.Stuck (c : Nat) (h : History α) : Pc α → Prop
  | .wait j i _ => ¬Ready c h j.call.side (j.index + i)
  | _ => False

/-- All running calls wait for slots that are not ready. -/
def Stalled (s : State Tid α) : Prop :=
  ∀ t, (s.pc t).running = true → (s.pc t).Stuck s.q.capacity s.hist

/-- Thread `t` waits for the slot of a ticket. -/
def Waits (s : State Tid α) (t : Tid) (σ : Side) (k : Nat) : Prop :=
  ∃ j i w, s.pc t = .wait j i w ∧ j.call.side = σ ∧ j.index + i = k

/-- Whoever still waits has no partner: a pop waits for a ticket that no push has claimed, and
a push waits for a slot that no pop has claimed. -/
structure Settled (s : State Tid α) : Prop where
  waits : ∀ t, (s.pc t).running = true → ∃ σ k, Waits s t σ k
  pops : ∀ t k, Waits s t .cons k → s.q.nextIndex .prod ≤ k
  pushes : ∀ t k, Waits s t .prod k → s.q.nextIndex .cons + s.q.capacity ≤ k
  balanced : s.q.nextIndex .cons ≤ s.q.nextIndex .prod →
    s.q.nextIndex .prod ≤ s.q.nextIndex .cons + s.q.capacity → ∀ t, (s.pc t).running = false

/-! ## Stalled states -/

namespace Inv

variable {s : State Tid α}

/-- The ticket that a thread waits for is claimed, and its slot is behind it. -/
theorem waits_behind (h : Inv s) (stalled : Stalled s) {t : Tid} {σ : Side} {k : Nat}
    (wait : Waits s t σ k) :
    k < s.q.nextIndex σ ∧ s.hist.ver (k % s.q.capacity) < phase s.q.capacity σ k := by
  obtain ⟨j, i, w, hp, rfl, rfl⟩ := wait
  have loc := h.locals t
  have stuck := stalled t (by rw [hp]; rfl)
  rw [hp] at loc stuck
  have lt := loc.2.1
  have held : (s.pc t).Holds j.call.side (j.index + i) := by
    rw [hp]; exact ⟨rfl, by omega, by omega⟩
  exact ⟨h.claimed t _ _ held, lt_of_le_of_ne (h.low t _ _ held) stuck⟩

/-- Whoever holds a ticket in a stalled state waits for a ticket of this or an earlier round. -/
theorem holder_waits (h : Inv s) (stalled : Stalled s) {u : Tid} {σ : Side} {k : Nat}
    (held : (s.pc u).Holds σ k) :
    ∃ l, Waits s u σ l ∧ l / s.q.capacity ≤ k / s.q.capacity := by
  have running : (s.pc u).running = true := by
    cases hp : s.pc u <;> rw [hp] at held <;> first | rfl | exact held.elim
  have stuck := stalled u running
  have loc := h.locals u
  cases hp : s.pc u <;> rw [hp] at stuck loc held <;> try exact stuck.elim
  case wait j i w =>
    obtain ⟨ok, lt, -⟩ := loc
    obtain ⟨rfl, lo, -⟩ := held
    refine ⟨j.index + i, ⟨j, i, w, hp, rfl, rfl⟩, ?_⟩
    rw [(round_add ok.fits lt).2]
    exact Nat.div_le_div_right lo

/-- A pop waits although its ticket is pushed: then a push of no later round waits. -/
theorem pop_waits (h : Inv s) (stalled : Stalled s) {t : Tid} {k : Nat}
    (wait : Waits s t .cons k) (pushed : k < s.q.nextIndex .prod) :
    ∃ u l, Waits s u .prod l ∧ l / s.q.capacity ≤ k / s.q.capacity := by
  obtain ⟨-, behind⟩ := h.waits_behind stalled wait
  obtain ⟨u, held⟩ := h.cover .prod k pushed (by simp only [phase] at behind ⊢; omega)
  exact ⟨u, h.holder_waits stalled held⟩

/-- A push waits although its slot is popped: then a pop of an earlier round waits. -/
theorem push_waits (h : Inv s) (stalled : Stalled s) {t : Tid} {k : Nat}
    (wait : Waits s t .prod k) (popped : k < s.q.nextIndex .cons + s.q.capacity) :
    ∃ u l, Waits s u .cons l ∧ l / s.q.capacity < k / s.q.capacity := by
  obtain ⟨-, behind⟩ := h.waits_behind stalled wait
  have pos := h.sized.capacity_pos
  simp only [phase] at behind
  have later : s.q.capacity ≤ k := by
    by_contra early
    rw [Nat.div_eq_of_lt (not_le.mp early)] at behind
    omega
  obtain ⟨m, rfl⟩ := Nat.exists_eq_add_of_le' later
  rw [Nat.add_mod_right, Nat.add_div_right _ pos] at behind
  obtain ⟨u, held⟩ := h.cover .cons m (by omega) (by simp only [phase]; omega)
  obtain ⟨l, waits, le⟩ := h.holder_waits stalled held
  refine ⟨u, l, waits, ?_⟩
  rw [Nat.add_div_right _ pos]
  omega

/-- Where every popped ticket is pushed, no pop waits. -/
theorem no_pop_waits (h : Inv s) (stalled : Stalled s)
    (le : s.q.nextIndex .cons ≤ s.q.nextIndex .prod) {t : Tid} {k : Nat} :
    ¬Waits s t .cons k := by
  induction hr : k / s.q.capacity using Nat.strong_induction_on generalizing t k with
  | _ r ih =>
    intro wait
    subst hr
    have pos := h.sized.capacity_pos
    have below := (h.waits_behind stalled wait).1
    obtain ⟨u, l, waits, round⟩ := h.pop_waits stalled wait (by omega)
    have near : l < k + s.q.capacity := by
      have := Nat.lt_mul_div_succ l pos
      have := Nat.div_mul_le_self k s.q.capacity
      have := Nat.mul_le_mul_left s.q.capacity round
      rw [Nat.mul_comm (k / s.q.capacity)] at *
      rw [Nat.mul_add] at *
      omega
    obtain ⟨v, m, waits', earlier⟩ := h.push_waits stalled waits (by omega)
    exact ih _ (earlier.trans_le round) rfl waits'

/-- Where every slot that is pushed to is popped before, no push waits. -/
theorem no_push_waits (h : Inv s) (stalled : Stalled s)
    (le : s.q.nextIndex .prod ≤ s.q.nextIndex .cons + s.q.capacity) {t : Tid} {k : Nat} :
    ¬Waits s t .prod k := by
  induction hr : k / s.q.capacity using Nat.strong_induction_on generalizing t k with
  | _ r ih =>
    intro wait
    subst hr
    have below := (h.waits_behind stalled wait).1
    obtain ⟨u, l, waits, round⟩ := h.push_waits stalled wait (by omega)
    have lt : l < k := Nat.lt_of_div_lt_div round
    obtain ⟨v, m, waits', same⟩ := h.pop_waits stalled waits (by omega)
    exact ih _ (same.trans_lt round) rfl waits'

/-- In a stalled state whoever waits has no partner. -/
theorem settled (h : Inv s) (stalled : Stalled s) : Settled s := by
  have waits : ∀ t, (s.pc t).running = true → ∃ σ k, Waits s t σ k := by
    intro t running
    have stuck := stalled t running
    cases hp : s.pc t <;> rw [hp] at stuck <;> try exact stuck.elim
    case wait j i w => exact ⟨_, _, j, i, w, hp, rfl, rfl⟩
  refine ⟨waits, fun t k wait => ?_, fun t k wait => ?_, fun le le' t => ?_⟩
  · by_contra pushed
    obtain ⟨u, l, partner, -⟩ := h.pop_waits stalled wait (not_le.mp pushed)
    obtain few | many := le_or_gt (s.q.nextIndex .prod) (s.q.nextIndex .cons + s.q.capacity)
    · exact h.no_push_waits stalled few partner
    · exact h.no_pop_waits stalled (by omega) wait
  · by_contra popped
    obtain ⟨u, l, partner, -⟩ := h.push_waits stalled wait (not_le.mp popped)
    obtain few | many := le_or_gt (s.q.nextIndex .cons) (s.q.nextIndex .prod)
    · exact h.no_pop_waits stalled few partner
    · exact h.no_push_waits stalled (by omega) wait
  · by_contra running
    obtain ⟨σ, k, wait⟩ := waits t (Bool.not_eq_false _ ▸ running)
    cases σ with
    | prod => exact h.no_push_waits stalled le' wait
    | cons => exact h.no_pop_waits stalled le wait

end Inv

end Fuxi.Base.BoundedQueue
