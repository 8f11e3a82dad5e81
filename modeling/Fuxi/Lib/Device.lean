import Mathlib.Data.Option.Basic
import Mathlib.Tactic.TypeStar

/-!
# Devices and what they answer

A device is called by one thread, one call after the other. Two devices whose related states
answer every call alike cannot be told apart by any sequence of calls.
-/

namespace Fuxi.Lib

/-- A call changes the state and returns an answer, or it does not return. -/
structure Device (σ ι ο : Type*) where
  call : σ → ι → Option (σ × ο)

namespace Device

variable {σ τ ι ο : Type*}

/-- The answers to a list of calls, if all of them return. -/
def answers (D : Device σ ι ο) (s : σ) : List ι → Option (List ο)
  | [] => some []
  | i :: is => (D.call s i).bind fun r => (D.answers r.1 is).map (r.2 :: ·)

/-- Related states answer every call alike and stay related. -/
def Simulates (D : Device σ ι ο) (E : Device τ ι ο) (R : σ → τ → Prop) : Prop :=
  ∀ s t i, R s t → Option.Rel (fun x y => R x.1 y.1 ∧ x.2 = y.2) (D.call s i) (E.call t i)

theorem Simulates.answers_eq {D : Device σ ι ο} {E : Device τ ι ο} {R : σ → τ → Prop}
    (h : D.Simulates E R) {s : σ} {t : τ} (start : R s t) (is : List ι) :
    D.answers s is = E.answers t is := by
  induction is generalizing s t with
  | nil => rfl
  | cons i is ih =>
    have one := h s t i start
    simp only [answers]
    generalize D.call s i = x at one
    generalize E.call t i = y at one
    cases one with
    | none => rfl
    | some both => simp only [Option.bind_some, ih both.1, both.2]

end Device

end Fuxi.Lib
