import Mathlib.Algebra.BigOperators.Group.Finset.Piecewise
import Mathlib.Algebra.BigOperators.Ring.List
import Mathlib.Algebra.Order.BigOperators.Group.Finset
import Mathlib.Tactic.Ring
import Fuxi.Base.IdAllocator
import Fuxi.Lib.Progress

/-!
# `IdAllocator` is lock-free

A compare-exchange of `allocate` or `deallocate` fails only because another call has changed the
head in between, or for no reason. Each call changes the head at most once. So whatever the order
of the steps, `n` running calls are over after a number of steps that is quadratic in `n`, plus
two for every failure without reason. No call ever waits for another one.
-/

namespace Fuxi.Base.IdAllocator

open Lib

variable {Tid : Type*} {T : IdType}

/-- A call is running. -/
def Pc.running : Pc → Bool
  | .idle => false
  | _ => true

/-- One for a call that has neither changed the head nor taken a new value. -/
def Pc.unclaimed : Pc → ℕ
  | .loadHead | .loadNext _ | .pop _ _ | .fetchAdd | .loadTop _ | .storeNext _ _ | .push _ _ => 1
  | .idle | .storeActive _ | .ensure _ => 0

/-- The steps that are left if nobody changes the head. -/
def Pc.rank (current : VersionedValue) : Pc → ℕ
  | .idle => 0
  | .storeActive _ | .ensure _ | .fetchAdd => 1
  | .loadHead | .loadTop _ => 3
  | .loadNext head | .storeNext _ head => if current = head then 2 else 4
  | .pop head _ | .push _ head => if current = head then 1 else 3

theorem Pc.unclaimed_le (p : Pc) : p.unclaimed ≤ 1 := by
  cases p <;> simp [unclaimed]

theorem Pc.rank_le (current : VersionedValue) (p : Pc) : p.rank current ≤ 4 := by
  cases p <;> simp only [rank] <;> (try split_ifs) <;> decide

/-- The potential of some threads: a claim that is left pays for the retries that it causes. -/
def potential (S : Finset Tid) (s : State Tid) : ℕ :=
  (4 * S.card + 1) * ∑ t ∈ S, (s.pc t).unclaimed + ∑ t ∈ S, (s.pc t).rank s.freeHead

theorem sum_rank_le (S : Finset Tid) (s : State Tid) :
    ∑ t ∈ S, (s.pc t).rank s.freeHead ≤ 4 * S.card := by
  have := Finset.sum_le_card_nsmul S _ 4 fun t _ => (s.pc t).rank_le s.freeHead
  rwa [nsmul_eq_mul, Nat.cast_id, Nat.mul_comm] at this

theorem sum_unclaimed_le (S : Finset Tid) (s : State Tid) :
    ∑ t ∈ S, (s.pc t).unclaimed ≤ S.card := by
  have := Finset.sum_le_card_nsmul S _ 1 fun t _ => (s.pc t).unclaimed_le
  rwa [nsmul_eq_mul, Nat.cast_id, Nat.mul_one] at this

/-- The potential of `n` calls. -/
theorem potential_le (S : Finset Tid) (s : State Tid) :
    potential S s ≤ S.card * (4 * S.card + 5) := by
  have rank := sum_rank_le S s
  have claims := Nat.mul_le_mul_left (4 * S.card + 1) (sum_unclaimed_le S s)
  have total : (4 * S.card + 1) * S.card + 4 * S.card = S.card * (4 * S.card + 5) := by ring
  unfold potential
  omega

section Steps

variable [DecidableEq Tid] {s s' : State Tid} {t : Tid} {S : Finset Tid}

/-- The sum over the threads after one of them has gone on. -/
theorem sum_update (f : Pc → ℕ) (mem : t ∈ S) (p : Pc) :
    ∑ u ∈ S, f (Function.update s.pc t p u) + f (s.pc t) = ∑ u ∈ S, f (s.pc u) + f p := by
  have moved : (fun u => f (Function.update s.pc t p u)) =
      Function.update (fun u => f (s.pc u)) t (f p) := Function.comp_update f s.pc t p
  have before := Finset.sum_eq_add_sum_sdiff_singleton_of_mem mem fun u => f (s.pc u)
  rw [moved, Finset.sum_update_of_mem mem, before]
  ring

/-- A step that claims lowers the potential, whatever it does to the head. -/
theorem potential_claims (mem : t ∈ S) {p : Pc} (pc : s'.pc = Function.update s.pc t p)
    (old : (s.pc t).unclaimed = 1) (new : p.unclaimed = 0) :
    potential S s' + 1 ≤ potential S s := by
  have rank := sum_rank_le S s'
  have claims := sum_update Pc.unclaimed (s := s) mem p
  rw [← pc, old, new] at claims
  have fewer : ∑ u ∈ S, (s.pc u).unclaimed = ∑ u ∈ S, (s'.pc u).unclaimed + 1 := claims.symm
  unfold potential
  rw [fewer, Nat.mul_add]
  omega

/-- A step that leaves the head changes the rank of its thread only. -/
theorem potential_walks (mem : t ∈ S) {p : Pc} (pc : s'.pc = Function.update s.pc t p)
    (head : s'.freeHead = s.freeHead) (same : p.unclaimed = (s.pc t).unclaimed) :
    potential S s' + (s.pc t).rank s.freeHead = potential S s + p.rank s.freeHead := by
  have rank := sum_update (Pc.rank s.freeHead) (s := s) mem p
  have claims := sum_update Pc.unclaimed (s := s) mem p
  rw [same] at claims
  unfold potential
  rw [head, pc, Nat.add_right_cancel claims]
  omega

/-- A call that has just read the head. -/
theorem rank_look (head : VersionedValue) : (State.look T head).rank head ≤ 2 := by
  unfold State.look
  split_ifs <;> simp [Pc.rank]

theorem unclaimed_look (head : VersionedValue) : (State.look T head).unclaimed = 1 := by
  unfold State.look
  split_ifs <;> rfl

/-- Every step lowers the potential. -/
theorem potential_advance (mem : t ∈ S) (hs : s.advance T t = some s') :
    potential S s' + 1 ≤ potential S s := by
  have walks : ∀ {r : State Tid} (p : Pc), r.pc = Function.update s.pc t p →
      r.freeHead = s.freeHead → p.unclaimed = (s.pc t).unclaimed →
      p.rank s.freeHead < (s.pc t).rank s.freeHead → potential S r + 1 ≤ potential S s := by
    intro r p pc head same less
    have := potential_walks mem pc head same
    omega
  have retries : ∀ {p : Pc}, s.pc t = p → p.unclaimed = 1 → 3 ≤ p.rank s.freeHead →
      potential S ((s.see t).goto t (State.look T s.freeHead)) + 1 ≤ potential S s := by
    intro p hp one three
    refine walks _ rfl rfl (by rw [hp, one, unclaimed_look]) ?_
    rw [hp]
    exact (rank_look _).trans_lt three
  cases hp : s.pc t <;> simp only [State.advance, hp, reduceCtorEq, Option.some.injEq] at hs
  case loadHead =>
    subst hs
    exact retries hp rfl le_rfl
  case loadNext head =>
    subst hs
    refine walks _ rfl rfl (by rw [hp]; rfl) ?_
    rw [hp]
    simp only [Pc.rank]
    split_ifs <;> decide
  case pop head next =>
    split_ifs at hs with same <;> cases hs
    · exact potential_claims mem (p := .storeActive head) rfl (by rw [hp]; rfl) rfl
    · exact retries hp rfl (by simp [Pc.rank, same])
  case storeActive id =>
    subst hs
    exact walks .idle rfl rfl (by rw [hp]; rfl) (by rw [hp]; exact Nat.zero_lt_one)
  case fetchAdd =>
    subst hs
    exact potential_claims mem (p := .ensure ⟨s.nextValue, 0⟩) rfl (by rw [hp]; rfl) rfl
  case ensure id =>
    subst hs
    exact walks .idle rfl rfl (by rw [hp]; rfl) (by rw [hp]; exact Nat.zero_lt_one)
  case loadTop id =>
    subst hs
    exact walks _ rfl rfl (by rw [hp]; rfl) (by rw [hp]; simp [Pc.rank])
  case storeNext id head =>
    subst hs
    refine walks _ rfl rfl (by rw [hp]; rfl) ?_
    rw [hp]
    simp only [Pc.rank]
    split_ifs <;> decide
  case push id head =>
    split_ifs at hs with same <;> cases hs
    · exact potential_claims mem (p := .idle) rfl (by rw [hp]; rfl) rfl
    · exact walks _ rfl rfl (by rw [hp]; rfl) (by rw [hp]; simp [Pc.rank, same])

/-- A failure without reason raises the potential by at most one. -/
theorem potential_weakFail (mem : t ∈ S) (hs : s.step T (t, .weakFail) = some s') :
    potential S s' ≤ potential S s + 1 := by
  have retries : ∀ {p : Pc}, p.unclaimed = (s.pc t).unclaimed → p.rank s.freeHead ≤ 2 →
      1 ≤ (s.pc t).rank s.freeHead →
        potential S ((s.see t).goto t p) ≤ potential S s + 1 := by
    intro p same two one
    have : potential S ((s.see t).goto t p) + (s.pc t).rank s.freeHead =
        potential S s + p.rank s.freeHead := potential_walks mem rfl rfl same
    omega
  simp only [State.step] at hs
  split at hs
  · rename_i head next hp
    cases hs
    refine retries (by rw [hp, unclaimed_look]; rfl) (rank_look _) ?_
    rw [hp]
    simp only [Pc.rank]
    split_ifs <;> decide
  · rename_i id head hp
    cases hs
    refine retries (by rw [hp]; rfl) (by simp [Pc.rank]) ?_
    rw [hp]
    simp only [Pc.rank]
    split_ifs <;> decide
  · cases hs

/-- Only the thread that makes a step goes on. -/
theorem step_pc {m : Move} (hs : s.step T (t, m) = some s') :
    ∃ p, s'.pc = Function.update s.pc t p := by
  cases m with
  | allocate =>
    simp only [State.step] at hs
    split at hs <;> cases hs
    exact ⟨_, rfl⟩
  | deallocate id =>
    simp only [State.step] at hs
    split at hs
    · split_ifs at hs
      cases hs
      exact ⟨_, rfl⟩
    · cases hs
  | step =>
    simp only [State.step, State.advance] at hs
    split at hs <;> (try split_ifs at hs) <;> cases hs <;> exact ⟨_, rfl⟩
  | weakFail =>
    simp only [State.step] at hs
    split at hs <;> cases hs <;> exact ⟨_, rfl⟩

/-- The move begins a call. -/
def Move.begins : Move → Bool
  | .allocate | .deallocate _ => true
  | .step | .weakFail => false

/-- A thread whose call is over only moves by a new call. -/
theorem running_of_step {m : Move} (hs : s.step T (t, m) = some s') (old : m.begins = false) :
    (s.pc t).running = true := by
  cases hp : s.pc t with
  | idle =>
    cases m with
    | allocate | deallocate id => cases old
    | step | weakFail => simp [State.step, State.advance, hp] at hs
  | _ => rfl

/-- A running call is never blocked. -/
theorem advance_of_running (running : (s.pc t).running = true) : ∃ s', s.advance T t = some s' := by
  unfold State.advance
  cases hp : s.pc t with
  | idle => rw [hp] at running; cases running
  | pop head next | push id head => simp only; split_ifs <;> exact ⟨_, rfl⟩
  | _ => exact ⟨_, rfl⟩

/-- Failures without reason. -/
def weak : Tid × Move → ℕ
  | (_, .weakFail) => 1
  | _ => 0

/-- However the steps of `n` running calls interleave, and whatever state they start in, there
are at most `n * (4 * n + 5)` of them and two for each compare-exchange that fails without
reason, if no new calls are made. None of the calls ever waits. -/
theorem lockFree {blank : ℕ → ℕ} {is : List (Tid × Move)} (S : Finset Tid)
    (within : ∀ t, (s.pc t).running = true → t ∈ S)
    (old : ∀ m ∈ is, m.2.begins = false)
    (hr : (machine Tid T blank).run s is = some s') :
    is.length ≤ S.card * (4 * S.card + 5) + 2 * (is.map weak).sum ∧
      ∀ t, (s'.pc t).running = true → ∃ r, s'.advance T t = some r := by
  refine ⟨?_, fun t running => advance_of_running running⟩
  have pays : ∀ r m r', (∀ t, (r.pc t).running = true → t ∈ S) → m.2.begins = false →
      (machine Tid T blank).step r m = some r' → (∀ t, (r'.pc t).running = true → t ∈ S) ∧
        potential S r' + 1 ≤ potential S r + 2 * weak m := by
    rintro r ⟨t, m⟩ r' within old hs
    have mem := within t (running_of_step hs old)
    refine ⟨fun u running => ?_, ?_⟩
    · obtain ⟨p, pc⟩ := step_pc hs
      by_cases hu : u = t
      · exact hu ▸ mem
      · rw [pc, Function.update_of_ne hu] at running
        exact within u running
    · cases m with
      | allocate | deallocate id => cases old
      | step => exact (potential_advance mem hs).trans (Nat.le_add_right _ _)
      | weakFail =>
        have := potential_weakFail mem hs
        simp only [weak]
        omega
  have bound := (Machine.run_length_le pays within old hr).2
  have start := potential_le S s
  rw [List.sum_map_mul_left] at bound
  omega

end Steps

/-- Two threads are about to give back their ids. -/
def contested : State ℕ :=
  { unused ℕ .uint16 fun _ => 0 with
    nextValue := 2
    pc := fun t => if t < 2 then .loadTop ⟨t, 0⟩ else .idle }

/-- The compare-exchange of thread 1 fails once without reason and once since thread 0 was
faster. -/
def contest : List (ℕ × Move) :=
  [(0, .step), (1, .step), (1, .step), (1, .weakFail), (0, .step), (1, .step), (0, .step),
    (1, .step), (1, .step), (1, .step)]

theorem lockFree_contest :
    ∃ s, (machine ℕ .uint16 fun _ => 0).run contested contest = some s ∧
      contest.length ≤ 2 * (4 * 2 + 5) + 2 * (contest.map weak).sum ∧
        ∀ t, (s.pc t).running = true → ∃ r, s.advance .uint16 t = some r := by
  obtain ⟨s, hs⟩ := Option.isSome_iff_exists.mp (show ((machine ℕ .uint16 fun _ => 0).run contested
    contest).isSome = true by decide +kernel)
  refine ⟨s, hs, lockFree {0, 1} (fun t running => ?_) (by decide) hs⟩
  by_contra out
  simp only [Finset.mem_insert, Finset.mem_singleton, not_or] at out
  have idle : contested.pc t = .idle := if_neg (show ¬t < 2 by omega)
  rw [idle] at running
  cases running

end Fuxi.Base.IdAllocator
