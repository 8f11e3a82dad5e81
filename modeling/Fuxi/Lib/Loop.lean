import Mathlib.Tactic.TypeStar

/-!
# Loops

A loop runs its body while its condition holds, and has a result if it ends within the rounds that
it is given. An invariant that counts the rounds shows that it ends and what it leaves behind.
-/

namespace Fuxi.Lib

variable {σ : Type*} {cond : σ → Bool} {body : σ → σ} {s t : σ}

/-- `while (cond) body`, if it ends within so many rounds. -/
def loop (cond : σ → Bool) (body : σ → σ) : Nat → σ → Option σ
  | 0, s => if cond s then none else some s
  | rounds + 1, s => if cond s then loop cond body rounds (body s) else some s

theorem loop_of_not (stop : cond s = false) (rounds : Nat) :
    loop cond body rounds s = some s := by
  cases rounds <;> simp [loop, stop]

theorem loop_succ (more : cond s = true) (rounds : Nat) :
    loop cond body (rounds + 1) s = loop cond body rounds (body s) :=
  if_pos more

/-- What the body preserves holds when the loop has ended. -/
theorem loop_invariant {inv : σ → Prop} (preserved : ∀ s, inv s → inv (body s)) {rounds : Nat}
    (start : inv s) (ends : loop cond body rounds s = some t) : inv t := by
  induction rounds generalizing s with
  | zero =>
    cases more : cond s with
    | true => simp [loop, more] at ends
    | false => exact Option.some.inj ((loop_of_not more 0).symm.trans ends) ▸ start
  | succ rounds ih =>
    cases more : cond s with
    | true => exact ih (preserved s start) ((loop_succ more rounds).symm.trans ends)
    | false => exact Option.some.inj ((loop_of_not more _).symm.trans ends) ▸ start

/-- A loop follows another one, state by state. -/
theorem loop_map {τ : Type*} {cond' : τ → Bool} {body' : τ → τ} {f : σ → τ}
    (sameCond : ∀ s, cond' (f s) = cond s) (sameBody : ∀ s, body' (f s) = f (body s))
    (rounds : Nat) (s : σ) :
    loop cond' body' rounds (f s) = (loop cond body rounds s).map f := by
  induction rounds generalizing s with
  | zero => cases more : cond s <;> simp [loop, sameCond, more]
  | succ rounds ih =>
    cases more : cond s with
    | true =>
      have more' : cond' (f s) = true := (sameCond s).trans more
      rw [loop_succ more, loop_succ more', sameBody]
      exact ih (body s)
    | false =>
      have stop' : cond' (f s) = false := (sameCond s).trans more
      rw [loop_of_not more, loop_of_not stop']
      rfl

/-- The rule for a loop whose condition holds for so many rounds, with an invariant that knows how
many of them have passed. -/
theorem loop_counted {k : Nat} {inv : Nat → σ → Prop} (start : inv 0 s)
    (more : ∀ i < k, ∀ s, inv i s → cond s = true ∧ inv (i + 1) (body s))
    (stop : ∀ s, inv k s → cond s = false) :
    ∃ t, (∀ rounds, k ≤ rounds → loop cond body rounds s = some t) ∧ inv k t := by
  induction k generalizing s inv with
  | zero => exact ⟨s, fun rounds _ => loop_of_not (stop s start) rounds, start⟩
  | succ k ih =>
    obtain ⟨first, next⟩ := more 0 (Nat.succ_pos k) s start
    obtain ⟨t, ends, last⟩ := @ih (body s) (fun i => inv (i + 1)) next
      (fun i lt => more (i + 1) (Nat.succ_lt_succ lt)) stop
    refine ⟨t, fun rounds enough => ?_, last⟩
    obtain ⟨rounds, rfl⟩ := Nat.exists_eq_add_of_le' (Nat.one_le_of_lt enough)
    rw [loop_succ first]
    exact ends rounds (Nat.le_of_succ_le_succ enough)

end Fuxi.Lib
