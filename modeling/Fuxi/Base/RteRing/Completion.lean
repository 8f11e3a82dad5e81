import Mathlib.Algebra.BigOperators.Group.Finset.Basic
import Mathlib.Algebra.Order.BigOperators.Group.Finset
import Mathlib.Data.Prod.Lex
import Fuxi.Base.RteRing.ExactlyOnce
import Fuxi.Lib.Progress

/-!
# Every call on the ring returns

The multi path retries its compare-exchange and waits for the claims before its own, so a call
alone may run for ever. Once no new calls are made, every access that is not a round of the wait
in `UpdateTail` brings the calls nearer to their end: a compare-exchange fails only because
another call has claimed positions, and a claim is made once for each call. The claim that starts
at the tail never waits. So under every fair schedule all calls return.
-/

namespace Fuxi.Base.RteRing

open Lib

variable {α Tid : Type*}

/-- No call is running. -/
def Quiet (s : State Tid α) : Prop := ∀ t, (s.pc t).call? = none

/-- All running calls belong to these threads. -/
def Within (S : Finset Tid) (s : State Tid α) : Prop := ∀ t, t ∉ S → (s.pc t).call? = none

namespace Pc

/-- One for a call that has not moved the head yet. -/
def unclaimed : Pc α → ℕ
  | .loadHead _ | .loadTail _ _ _ | .moveHead _ _ _ _ => 1
  | .idle | .copy _ _ | .waitTail _ | .storeTail _ | .returned _ _ _ => 0

/-- The accesses that are left before the next claim on the ring, or before the call returns. -/
def rank (r : RteRing α) : Pc α → ℕ
  | .idle | .returned _ _ _ => 0
  | .loadHead _ => 5
  | .loadTail c oldHead _ => if oldHead = (r.ht c.side).head then 2 else 4
  | .moveHead c oldHead _ _ => if oldHead = (r.ht c.side).head then 1 else 3
  | .copy k done => k.call.n - done + 2
  | .waitTail _ => 2
  | .storeTail _ => 1

/-- The rank only looks at the heads. -/
theorem rank_congr {r r' : RteRing α} (heads : ∀ σ, (r'.ht σ).head = (r.ht σ).head) (p : Pc α) :
    p.rank r' = p.rank r := by
  cases p <;> simp [rank, heads]

theorem rank_updateTail (r : RteRing α) (k : Claim α) : (k.updateTail).rank r ≤ 2 := by
  unfold Claim.updateTail
  split_ifs <;> simp [rank]

theorem unclaimed_updateTail (k : Claim α) : (k.updateTail).unclaimed = 0 := by
  unfold Claim.updateTail
  split_ifs <;> rfl

end Pc

/-- What is left of the calls of some threads: the claims, then the accesses. -/
def remaining (S : Finset Tid) (s : State Tid α) : ℕ ×ₗ ℕ :=
  toLex (∑ t ∈ S, (s.pc t).unclaimed, ∑ t ∈ S, (s.pc t).rank s.ring)

/-- What an access brings its thread nearer by. -/
inductive Nearer [DecidableEq Tid] (s s' : State Tid α) (t : Tid) : Prop
  | rests (same : s' = s)
  | claims (p : Pc α) (pc : s'.pc = Function.update s.pc t p)
      (less : p.unclaimed < (s.pc t).unclaimed)
  | walks (p : Pc α) (pc : s'.pc = Function.update s.pc t p)
      (heads : ∀ σ, (s'.ring.ht σ).head = (s.ring.ht σ).head)
      (same : p.unclaimed = (s.pc t).unclaimed) (less : p.rank s.ring < (s.pc t).rank s.ring)

section Update

variable [DecidableEq Tid]

theorem sum_update_lt {f : Pc α → ℕ} {S : Finset Tid} {pc : Tid → Pc α} {t : Tid} {p : Pc α}
    (mem : t ∈ S) (less : f p < f (pc t)) :
    ∑ u ∈ S, f (Function.update pc t p u) < ∑ u ∈ S, f (pc u) := by
  refine Finset.sum_lt_sum (fun u _ => ?_) ⟨t, mem, by rw [Function.update_self]; exact less⟩
  by_cases hu : u = t
  · subst hu; rw [Function.update_self]; exact less.le
  · rw [Function.update_of_ne hu]

theorem sum_update_eq {f : Pc α → ℕ} {S : Finset Tid} {pc : Tid → Pc α} {t : Tid} {p : Pc α}
    (same : f p = f (pc t)) : ∑ u ∈ S, f (Function.update pc t p u) = ∑ u ∈ S, f (pc u) := by
  refine Finset.sum_congr rfl fun u _ => ?_
  by_cases hu : u = t
  · subst hu; rw [Function.update_self, same]
  · rw [Function.update_of_ne hu]

/-- An access that does not rest lowers what is left. -/
theorem Nearer.lower {s s' : State Tid α} {S : Finset Tid} {t : Tid} (h : Nearer s s' t)
    (mem : t ∈ S) : s' = s ∨ remaining S s' < remaining S s := by
  cases h with
  | rests same => exact Or.inl same
  | claims p pc less =>
    refine Or.inr (Prod.Lex.toLex_lt_toLex.mpr (Or.inl ?_))
    rw [pc]
    exact sum_update_lt mem less
  | walks p pc heads same less =>
    refine Or.inr (Prod.Lex.toLex_lt_toLex.mpr (Or.inr ⟨?_, ?_⟩))
    · rw [pc]
      exact sum_update_eq same
    · rw [pc]
      simp only [Pc.rank_congr heads]
      exact sum_update_lt mem less

end Update

/-- Every access rests or brings its call nearer to its end. -/
theorem Inv.nearer [DecidableEq Tid] {s s' : State Tid α} (h : Inv s) {t : Tid}
    (hs : s.advance t = some s') : Nearer s s' t := by
  have loc := h.locals t
  cases hp : s.pc t with
  | idle => simp [State.advance, hp] at hs
  | returned c m n => simp [State.advance, hp] at hs
  | loadHead c =>
    simp only [State.advance, hp, Option.some.injEq] at hs
    subst hs
    exact .walks _ rfl (fun _ => rfl) (by rw [hp]; rfl) (by rw [hp]; simp [Pc.rank])
  | loadTail c oldHead seen =>
    simp only [State.advance, hp] at hs
    split_ifs at hs <;> cases hs
    · exact .claims _ rfl (by rw [hp]; simp [Pc.unclaimed])
    · refine .walks _ rfl (fun _ => rfl) (by rw [hp]; rfl) ?_
      rw [hp]
      simp only [Pc.rank]
      split_ifs <;> omega
  | moveHead c oldHead entries seen =>
    rw [hp] at loc
    simp only [State.advance, hp] at hs
    split_ifs at hs with cond <;> cases hs
    · exact .claims _ rfl (by rw [hp]; simp [Pc.unclaimed])
    · -- the head has moved on since it was read
      have stale : oldHead ≠ (s.ring.ht c.side).head := by
        rintro rfl
        exact cond (Or.inr rfl)
      refine .walks _ rfl (fun _ => rfl) (by rw [hp]; rfl) ?_
      rw [hp]
      simp [Pc.rank, stale]
  | copy k done =>
    rw [hp] at loc
    have hk : (s.pc t).claim? = some k := by rw [hp]; rfl
    have lt := loc.2.1
    simp only [State.advance, hp, (h.schedule_eq hk).2] at hs
    rw [List.getElem?_map, List.getElem?_range lt] at hs
    simp only [Option.map_some, Option.some.injEq] at hs
    subst hs
    refine .walks _ rfl (fun σ => by simp) ?_ ?_
    · rw [hp]
      split_ifs
      · rfl
      · exact Pc.unclaimed_updateTail _
    · rw [hp]
      split_ifs with more
      · simp only [Pc.rank, Claim.copied_n]
        simp only [List.length_map, List.length_range] at more
        omega
      · refine (Pc.rank_updateTail _ _).trans_lt ?_
        simp only [Pc.rank]
        omega
  | waitTail k =>
    simp only [State.advance, hp] at hs
    split_ifs at hs with wait <;> cases hs
    · refine .rests ?_
      simp only [State.goto, ← hp, Function.update_eq_self]
    · exact .walks _ rfl (fun _ => rfl) (by rw [hp]; rfl) (by rw [hp]; simp [Pc.rank])
  | storeTail k =>
    simp only [State.advance, hp, Option.some.injEq] at hs
    subst hs
    exact .walks _ rfl (fun σ => by simp) (by rw [hp]; rfl) (by rw [hp]; simp [Pc.rank])

/-- The first claim of a side that is not published yet starts at its tail. -/
theorem Inv.first {s : State Tid α} (h : Inv s) {t : Tid} {k : Claim α}
    (hk : (s.pc t).claim? = some k) :
    ∃ u l, (s.pc u).claim? = some l ∧ (s.ring.ht l.call.side).tail = l.pos := by
  have ok := h.claimOk hk
  have above := ok.above
  have below := ok.below
  have pos := ok.pos_n
  obtain ⟨u, l, hl, side, holds⟩ := h.cover k.call.side _ le_rfl (by omega)
  refine ⟨u, l, hl, le_antisymm (h.claimOk hl).above ?_⟩
  rw [side]
  exact holds.1

/-- The first claim does not wait. -/
theorem Inv.first_moves [DecidableEq Tid] {s : State Tid α} (h : Inv s) {t : Tid} {k : Claim α}
    (hk : (s.pc t).claim? = some k) (first : (s.ring.ht k.call.side).tail = k.pos) :
    ∃ s', s.advance t = some s' ∧ s'.pc t ≠ s.pc t := by
  have loc := h.locals t
  have ok := h.claimOk hk
  have slots := (h.schedule_eq hk).2
  cases hp : s.pc t with
  | idle | loadHead _ | loadTail _ _ _ | moveHead _ _ _ _ | returned _ _ _ =>
    rw [hp] at hk; cases hk
  | copy l done =>
    rw [hp] at hk loc
    cases hk
    have lt := loc.2.1
    simp only [State.advance, hp, slots]
    rw [List.getElem?_map, List.getElem?_range lt]
    refine ⟨_, rfl, ?_⟩
    simp only [Function.update_self]
    split_ifs
    · intro same
      injection same
      omega
    · unfold Claim.updateTail
      split_ifs <;> exact fun same => by cases same
  | waitTail l =>
    rw [hp] at hk
    cases hk
    have ready : u32 (s.ring.ht k.call.side).tail = u32 k.oldHead := by rw [ok.head_eq, first]
    simp only [State.advance, hp, ready, ne_eq, not_true_eq_false, if_false]
    exact ⟨_, rfl, by simp [State.goto]⟩
  | storeTail l =>
    simp only [State.advance, hp]
    exact ⟨_, rfl, by simp⟩

/-- A call that has not claimed anything does not wait. -/
theorem State.unclaimed_moves [DecidableEq Tid] {s : State Tid α} {t : Tid} {c : Call α}
    (hc : (s.pc t).call? = some c) (none : (s.pc t).claim? = none) :
    ∃ s', s.advance t = some s' ∧ s'.pc t ≠ s.pc t := by
  cases hp : s.pc t with
  | idle | returned _ _ _ => rw [hp] at hc; cases hc
  | loadHead c =>
    simp only [advance, hp]
    exact ⟨_, rfl, by simp [goto]⟩
  | loadTail c oldHead seen =>
    simp only [advance, hp]
    split_ifs <;> exact ⟨_, rfl, by simp [goto]⟩
  | moveHead c oldHead entries seen =>
    simp only [advance, hp]
    split_ifs <;> exact ⟨_, rfl, by simp [goto]⟩
  | copy _ _ | waitTail _ | storeTail _ => rw [hp] at none; cases none

/-- Where a call is running, some running call can make an access that does not rest. -/
theorem Inv.help [DecidableEq Tid] {s : State Tid α} (h : Inv s) (busy : ¬ Quiet s) :
    ∃ t c, (s.pc t).call? = some c ∧ ∃ s', s.advance t = some s' ∧ s' ≠ s := by
  have moves : ∀ {t : Tid}, (∃ s', s.advance t = some s' ∧ s'.pc t ≠ s.pc t) →
      ∃ s', s.advance t = some s' ∧ s' ≠ s := fun ⟨s', hs, ne⟩ =>
    ⟨s', hs, fun same => ne (by rw [same])⟩
  by_cases claims : ∃ t k, (s.pc t).claim? = some k
  · obtain ⟨t, k, hk⟩ := claims
    obtain ⟨u, l, hl, first⟩ := h.first hk
    exact ⟨u, _, Pc.call?_of_claim? hl, moves (h.first_moves hl first)⟩
  · push Not at claims
    unfold Quiet at busy
    push Not at busy
    obtain ⟨t, ht⟩ := busy
    obtain ⟨c, hc⟩ := Option.ne_none_iff_exists'.mp ht
    exact ⟨t, c, hc, moves (State.unclaimed_moves hc (Option.eq_none_iff_forall_ne_some.mpr
      (claims t)))⟩

/-- A thread that makes an access is in a call and only changes its own program counter. -/
theorem Within.advance [DecidableEq Tid] {s s' : State Tid α} {S : Finset Tid} {t : Tid}
    (h : Within S s) (hs : s.advance t = some s') : Within S s' := by
  obtain ⟨p, pc, c, hc, -⟩ := State.advance_pc hs
  intro u hu
  have ne : u ≠ t := by
    rintro rfl
    rw [h u hu] at hc
    cases hc
  rw [pc, Function.update_of_ne ne]
  exact h u hu

/-- A thread that is in no call makes no access. -/
theorem State.advance_of_idle [DecidableEq Tid] {s : State Tid α} {t : Tid}
    (idle : (s.pc t).call? = none) : s.advance t = none := by
  cases hp : s.pc t with
  | idle | returned _ _ _ => simp only [advance, hp]
  | loadHead _ | loadTail _ _ _ | moveHead _ _ _ _ => rw [hp] at idle; cases idle
  | copy _ _ | waitTail _ | storeTail _ => rw [hp] at idle; cases idle

theorem State.timely_of_idle [DecidableEq Tid] {s : State Tid α} {t : Tid}
    (idle : s.advance t = none) : Timely s t := by
  intro c oldHead entries seen hp
  simp only [advance, hp] at idle
  split_ifs at idle

/-- Only finitely many calls run at a time. -/
theorem within_of_reach [DecidableEq Tid] {zero : α} {objectNum : Nat} {isSp isSc : Bool}
    {ok : State Tid α → Tid × Move α → State Tid α → Prop} {s : State Tid α}
    (h : (machine zero objectNum isSp isSc).Reach ok s) : ∃ S : Finset Tid, Within S s := by
  refine h.inv (P := fun s => ∃ S : Finset Tid, Within S s) ?_ ?_
  · rintro s rfl
    exact ⟨∅, fun _ _ => rfl⟩
  · rintro s ⟨t, c | _⟩ s' ⟨S, within⟩ hs -
    · cases State.enter_eq hs
      refine ⟨insert t S, fun u hu => ?_⟩
      rw [Finset.mem_insert, not_or] at hu
      simp only [State.goto, Function.update_of_ne hu.1]
      exact within u hu.2
    · exact ⟨S, within.advance hs⟩

/-- Where no call is running, everything that was claimed has been published. -/
theorem Inv.tail_eq_of_quiet {s : State Tid α} (h : Inv s) (quiet : Quiet s) (σ : Side) :
    (s.ring.ht σ).tail = (s.ring.ht σ).head := by
  refine le_antisymm (h.tail_le σ) (not_lt.mp fun lt => ?_)
  obtain ⟨t, k, hk, -⟩ := h.cover σ _ le_rfl lt
  exact absurd (quiet t) (by simp [Pc.call?_of_claim? hk])

/-- From every state that disciplined calls reach, and without new calls, every schedule that
keeps giving the running calls their turn and lets no compare-exchange come late ends all calls,
and then all that was claimed has been published. -/
theorem completes [DecidableEq Tid] (zero : α) (objectNum : Nat) (isSp isSc : Bool)
    (rules : Side → Rule Tid) {s : State Tid α}
    (h : (machine zero objectNum isSp isSc).Reach (disciplined rules) s) {turn : ℕ → Tid}
    (fair : FairFor (fun t => (s.pc t).call? ≠ none) turn)
    (timely : ∀ n, Timely (play State.advance s turn n) (turn n)) :
    ∃ n, Quiet (play State.advance s turn n) ∧
      ∀ σ, ((play State.advance s turn n).ring.ht σ).tail =
        ((play State.advance s turn n).ring.ht σ).head := by
  obtain ⟨S, within⟩ := within_of_reach h
  obtain ⟨inv, obeyed, fresh⟩ := reach_inv zero objectNum isSp isSc h
  let good (s' : State Tid α) : Prop := Inv s' ∧ Obeyed rules s' ∧ Fresh s' ∧ Within S s' ∧
    ∀ t, (s'.pc t).call? ≠ none → (s.pc t).call? ≠ none
  have start : good s := ⟨inv, obeyed, fresh, within, fun _ ht => ht⟩
  have keep : ∀ s₁ t s₂, good s₁ → Timely s₁ t → s₁.advance t = some s₂ → good s₂ := by
    rintro s₁ t s₂ ⟨inv, obeyed, fresh, within, old⟩ late hs
    have hs' : s₁.step (t, .step) = some s₂ := hs
    refine ⟨inv.step (fresh.inTurn inv obeyed.alone t) late hs', obeyed.step (by simp) hs',
      fresh.step obeyed.alone hs', within.advance hs, fun u hu => ?_⟩
    obtain ⟨p, pc, c, hc, -⟩ := State.advance_pc hs
    by_cases e : u = t
    · subst e; exact old u (by simp [hc])
    · rw [pc, Function.update_of_ne e] at hu
      exact old u hu
  have invs := fun n => play_inv start keep timely n
  obtain ⟨n, quiet⟩ : ∃ n, Quiet (play State.advance s turn n) := eventually_of_fair
    (μ := remaining S) start keep
    (fun s₁ t s₂ hg late hs => (hg.1.nearer hs).lower (by
      by_contra out
      obtain ⟨-, -, c, hc, -⟩ := State.advance_pc hs
      rw [hg.2.2.2.1 t out] at hc
      cases hc))
    (fun s₁ hg busy => by
      obtain ⟨t, c, hc, moves⟩ := hg.1.help busy
      exact ⟨t, hg.2.2.2.2 t (by simp [hc]), moves⟩)
    fair timely
  exact ⟨n, quiet, (invs n).1.tail_eq_of_quiet quiet⟩

/-- Two producers on the multi path enter together. -/
def rivals : State ℕ ℕ :=
  ((fresh ℕ 0 2 false false).goto 0 (.loadHead ⟨.prod, 1, fun _ => 7, false⟩)).goto 1
    (.loadHead ⟨.prod, 1, fun _ => 9, false⟩)

theorem rivals_reach : (machine 0 2 false false).Reach (disciplined fun _ => .multi) rivals :=
  .step (i := (1, .call ⟨.prod, 1, fun _ => 9, false⟩))
    (.step (i := (0, .call ⟨.prod, 1, fun _ => 7, false⟩)) (.start rfl) rfl (by decide)) rfl
    (by decide)

/-- They take turns: both read the head, and the second has to try again. -/
theorem completes_rivals :
    ∃ n, Quiet (play State.advance rivals (· % 2) n) ∧
      ∀ σ, ((play State.advance rivals (· % 2) n).ring.ht σ).tail =
        ((play State.advance rivals (· % 2) n).ring.ht σ).head := by
  have within : Within {0, 1} rivals := by
    intro t ht
    simp only [Finset.mem_insert, Finset.mem_singleton, not_or] at ht
    simp [rivals, State.goto, ht.1, ht.2, fresh, Pc.call?]
  have later : ∀ n, Within {0, 1} (play State.advance rivals (· % 2) n) :=
    play_inv within (fun _ _ _ h (_ : True) hs => h.advance hs) fun _ => trivial
  have stuck : ∀ t, (play State.advance rivals (· % 2) 20).advance t = none := by
    intro t
    by_cases ht : t ∈ ({0, 1} : Finset ℕ)
    · have ends : ∀ t ∈ ({0, 1} : Finset ℕ),
          ((play State.advance rivals (· % 2) 20).advance t).isNone = true := by decide +kernel
      exact Option.isNone_iff_eq_none.mp (ends t ht)
    · exact State.advance_of_idle (later 20 t ht)
  refine completes 0 2 false false (fun _ => .multi) rivals_reach ?_ fun n => ?_
  · intro t ht n
    have mem : t ∈ ({0, 1} : Finset ℕ) := by
      by_contra out
      exact ht (within t out)
    have lt : t < 2 := (by decide : ∀ t ∈ ({0, 1} : Finset ℕ), t < 2) t mem
    exact ⟨2 * n + t, by omega, show (2 * n + t) % 2 = t by omega⟩
  · by_cases early : n < 20
    · exact (by decide +kernel : ∀ n < 20,
        Timely (play State.advance rivals (· % 2) n) (n % 2)) n early
    · obtain ⟨k, rfl⟩ := Nat.exists_eq_add_of_le (not_lt.mp early)
      rw [play_add, play_of_stuck stuck]
      exact State.timely_of_idle (stuck _)

end Fuxi.Base.RteRing
