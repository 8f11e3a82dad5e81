import Fuxi.Base.ConcurrentVector.Growth
import Fuxi.Lib.Progress

/-!
# A vector grows without waiting

A thread that loses a compare-exchange finds a longer table. So a call is over after as many
compare-exchanges as it lacked blocks when it began, whatever the other threads do.
-/

namespace Fuxi.Base.ConcurrentVector

open Lib

variable {Tid : Type*} [DecidableEq Tid] {m : Meta} {s s' : State Tid} {t u : Tid}

/-- The blocks that a call lacks. -/
def Pc.lacks (m : Meta) : Pc → Nat
  | .idle => 0
  | .exchange c _ blockNum _ => c.expectBlockNum m - blockNum

/-- A thread does not begin another call. -/
def SameCall (t : Tid) (i : Tid × Move) : Prop := i.1 = t → i.2 = .exchange

omit [DecidableEq Tid] in
/-- A table that has been replaced is shorter than the latest one. -/
theorem State.Inv.length_lt (h : s.Inv m) {p : Nat} (lt : p < s.tables.length) (ne : s.blockTable ≠ p) :
    (s.table p).length < (s.table s.blockTable).length := by
  have latest := h.latest
  have before : p < s.blockTable := by omega
  have grown := List.pairwise_iff_getElem.mp h.grows p s.blockTable lt h.latest_lt before
  simp only [State.table, List.getD_eq_getElem _ _ lt, List.getD_eq_getElem _ _ h.latest_lt]
  exact grown.2

theorem qualify_pc (c : Call) (ne : u ≠ t) : (s.qualify m t c).pc u = s.pc u := by
  unfold State.qualify
  split_ifs
  · exact Function.update_of_ne ne _ _
  · exact Function.update_of_ne ne _ _

/-- A thread moves alone. -/
theorem step_pc {mv : Move} (hs : s.step m (t, mv) = some s') (ne : u ≠ t) : s'.pc u = s.pc u := by
  cases mv with
  | call c =>
    cases at_ : s.pc t with
    | idle =>
      simp only [State.step, at_, Option.some.injEq] at hs
      subst hs
      exact qualify_pc c ne
    | exchange c p n blocks => simp [State.step, at_] at hs
  | exchange =>
    cases at_ : s.pc t with
    | idle => simp [State.step, at_] at hs
    | exchange c p n blocks =>
      simp only [State.step, at_] at hs
      split_ifs at hs
      · cases hs
        simp [State.ret, State.publish, State.goto, ne]
      · cases hs
        rw [qualify_pc c ne]
        exact Function.update_of_ne ne _ _

omit [DecidableEq Tid] in
theorem State.Inv.lacks_pos (h : s.Inv m) (busy : s.pc t ≠ .idle) : 0 < (s.pc t).lacks m := by
  have knows := h.knows t
  cases at_ : s.pc t with
  | idle => exact absurd at_ busy
  | exchange c p n blocks =>
    rw [at_] at knows
    obtain ⟨-, -, more, length, -⟩ := knows
    simp only [Pc.lacks]
    omega

/-- After a compare-exchange the call lacks fewer blocks, or is over. -/
theorem State.Inv.exchange_lacks (h : s.Inv m) (hs : s.step m (t, .exchange) = some s') :
    (s'.pc t).lacks m < (s.pc t).lacks m := by
  have knows := h.knows t
  cases at_ : s.pc t with
  | idle => simp [State.step, at_] at hs
  | exchange c p n blocks =>
    have some := h.lacks_pos (t := t) (by simp [at_])
    rw [at_] at knows some
    obtain ⟨lt, rfl, more, length, -⟩ := knows
    simp only [State.step, at_] at hs
    split_ifs at hs with same
    · cases hs
      simpa [State.ret, State.goto, Pc.lacks] using some
    · cases hs
      have longer := h.length_lt lt same
      unfold State.qualify
      split_ifs with enough
      · simpa [State.ret, State.goto, Pc.lacks] using some
      · have few : (s.table s.blockTable).length < c.expectBlockNum m := not_le.mp enough
        simp only [State.prepare, State.goto, Function.update_self, Pc.lacks, State.discard]
        change c.expectBlockNum m - (s.table s.blockTable).length < _
        omega

/-- A call makes at most as many compare-exchanges as it lacked blocks, whatever the other threads
do; then it is over, and before that it can always go on. -/
theorem waitFree (h : (machine Tid m).Reach Machine.free s) {moves : List (Tid × Move)}
    (hr : (machine Tid m).run s moves = some s') {c : Call} {p blockNum : Nat}
    {newBlocks : List Nat} (at_ : s.pc t = .exchange c p blockNum newBlocks)
    (own : ∀ i ∈ moves, SameCall t i) :
    moves.countP (fun i => i.1 = t) ≤ c.expectBlockNum m - blockNum ∧
      (moves.countP (fun i => i.1 = t) = c.expectBlockNum m - blockNum → s'.pc t = .idle) ∧
        (s'.pc t ≠ .idle → ∃ s'', s'.step m (t, .exchange) = some s'') := by
  have pays : ∀ s i s', s.Inv m → SameCall t i → (machine Tid m).step s i = some s' →
      s'.Inv m ∧ (s'.pc t).lacks m + (decide (i.1 = t)).toNat ≤ (s.pc t).lacks m + 0 := by
    rintro s ⟨u, mv⟩ s' inv same hs
    refine ⟨inv.step hs, ?_⟩
    by_cases e : u = t
    · subst e
      obtain rfl : mv = .exchange := same rfl
      simp only [decide_true, Bool.toNat_true, Nat.add_zero]
      exact inv.exchange_lacks hs
    · have others := step_pc hs (Ne.symm e)
      simp [e, others]
  obtain ⟨inv, bound⟩ := Machine.run_countP_le pays (inv_of_reach h) own hr
  have nothing : (moves.map fun _ => 0).sum = 0 := List.sum_eq_zero (by simp)
  rw [nothing, at_, Pc.lacks] at bound
  refine ⟨by omega, fun all => ?_, fun busy => ?_⟩
  · by_contra busy
    have := inv.lacks_pos busy
    omega
  · cases pc : s'.pc t with
    | idle => exact absurd pc busy
    | exchange c p n blocks =>
      simp only [State.step, pc]
      split_ifs
      · exact ⟨_, rfl⟩
      · exact ⟨_, rfl⟩

/-- Blocks of one element. -/
def single : Meta := ⟨0, by decide⟩

/-- Three threads ask for one, three and five blocks. -/
def threeCalls : State Nat :=
  ((State.qualify single {} 0 (.ensure 0)).qualify single 1 (.ensure 2)).qualify single 2 (.ensure 4)

/-- The last thread loses twice. -/
def losesTwice : List (Nat × Move) :=
  [(0, .exchange), (2, .exchange), (1, .exchange), (1, .exchange), (2, .exchange), (2, .exchange)]

theorem waitFree_losesTwice :
    ∃ s, (machine Nat single).run threeCalls losesTwice = some s ∧ s.pc 2 = .idle ∧
      losesTwice.countP (fun i => i.1 = 2) ≤ 5 := by
  have reach : (machine Nat single).Reach Machine.free threeCalls :=
    .step (i := (2, .call (.ensure 4))) (.step (i := (1, .call (.ensure 2)))
      (.step (i := (0, .call (.ensure 0))) (.start rfl) rfl trivial) rfl trivial) rfl trivial
  have at_ : threeCalls.pc 2 = .exchange (.ensure 4) 0 0 [4, 5, 6, 7, 8] := rfl
  have same : ∀ i ∈ losesTwice, SameCall 2 i := by simp [losesTwice, SameCall]
  have ran : ((machine Nat single).run threeCalls losesTwice).isSome = true := by decide +kernel
  obtain ⟨s, run⟩ := Option.isSome_iff_exists.mp ran
  obtain ⟨bound, -, -⟩ := waitFree reach run at_ same
  have ended : ((machine Nat single).run threeCalls losesTwice).all
      (fun s => (s.pc 2).lacks single = 0) = true := by decide +kernel
  rw [run] at ended
  refine ⟨s, run, ?_, bound⟩
  by_contra busy
  have some := (inv_of_reach (reach.of_run run)).lacks_pos busy
  simp only [Option.all_some, decide_eq_true_eq] at ended
  omega

end Fuxi.Base.ConcurrentVector
