import Mathlib.Data.List.Basic
import Mathlib.Tactic.TypeStar

/-!
# Machines, runs and invariants

A machine has a partial step function: a label says who moves and what the
environment answers, and `none` means that the move is not enabled. States are
reached through steps that all meet a side condition `ok`, so that one induction
rule serves both unrestricted runs and runs under a discipline.
-/

namespace Fuxi.Lib

/-- A labelled machine with a deterministic partial step. -/
structure Machine (σ ι : Type*) where
  start : σ → Prop
  step : σ → ι → Option σ

namespace Machine

variable {σ ι : Type*} (M : Machine σ ι)

/-- States reached from a start state by steps that all satisfy `ok`. -/
inductive Reach (ok : σ → ι → σ → Prop) : σ → Prop
  | start {s : σ} (h : M.start s) : Reach ok s
  | step {s t : σ} {i : ι} (h : Reach ok s) (move : M.step s i = some t) (side : ok s i t) :
      Reach ok t

/-- The unrestricted side condition. -/
def free : σ → ι → σ → Prop := fun _ _ _ => True

variable {M}

/-- The invariant rule: what holds at the start and is kept by every admitted
step holds of every reached state. -/
theorem Reach.inv {ok : σ → ι → σ → Prop} {P : σ → Prop} {s : σ} (h : M.Reach ok s)
    (base : ∀ s, M.start s → P s)
    (keep : ∀ s i t, P s → M.step s i = some t → ok s i t → P t) : P s := by
  induction h with
  | start h => exact base _ h
  | step _ move side ih => exact keep _ _ _ ih move side

/-- The invariant rule when the side condition may be used together with the
reachability of the state the step leaves. -/
theorem Reach.inv_reach {ok : σ → ι → σ → Prop} {P : σ → Prop} {s : σ} (h : M.Reach ok s)
    (base : ∀ s, M.start s → P s)
    (keep : ∀ s i t, M.Reach ok s → P s → M.step s i = some t → ok s i t → P t) : P s := by
  induction h with
  | start h => exact base _ h
  | step h move side ih => exact keep _ _ _ h ih move side

/-- A stronger side condition reaches fewer states. -/
theorem Reach.mono {ok ok' : σ → ι → σ → Prop} {s : σ} (h : M.Reach ok s)
    (le : ∀ s i t, ok s i t → ok' s i t) : M.Reach ok' s := by
  induction h with
  | start h => exact .start h
  | step _ move side ih => exact .step ih move (le _ _ _ side)

/-- A part of the state of one machine makes the steps of another machine, or rests. -/
theorem Reach.project {τ κ : Type*} {N : Machine τ κ} {ok : σ → ι → σ → Prop}
    {ok' : τ → κ → τ → Prop} {f : σ → τ} {s : σ} (h : M.Reach ok s)
    (start : ∀ s, M.start s → N.start (f s))
    (steps : ∀ s i t, M.step s i = some t → ok s i t →
      f t = f s ∨ ∃ k, N.step (f s) k = some (f t) ∧ ok' (f s) k (f t)) : N.Reach ok' (f s) := by
  induction h with
  | start h => exact .start (start _ h)
  | step _ move side ih =>
    obtain rest | ⟨k, hk, side'⟩ := steps _ _ _ move side
    · rw [rest]; exact ih
    · exact ih.step hk side'

variable (M)

/-- Execute a list of labels. -/
def run (s : σ) : List ι → Option σ
  | [] => some s
  | i :: is => (M.step s i).bind fun t => run t is

variable {M}

@[simp] theorem run_nil (s : σ) : M.run s [] = some s := rfl

@[simp] theorem run_cons (s : σ) (i : ι) (is : List ι) :
    M.run s (i :: is) = (M.step s i).bind fun t => M.run t is := rfl

theorem run_one {s t : σ} {i : ι} (hs : M.step s i = some t) : M.run s [i] = some t := by
  rw [run_cons, hs]
  rfl

/-- Every execution reaches its last state. -/
theorem Reach.of_run {s t : σ} {is : List ι} (h : M.Reach free s) (hr : M.run s is = some t) :
    M.Reach free t := by
  induction is generalizing s with
  | nil => cases hr; exact h
  | cons i is ih =>
    obtain ⟨u, hu, hr⟩ := Option.bind_eq_some_iff.mp hr
    exact ih (.step h hu trivial) hr

/-- An execution whose steps all meet a side condition. -/
def Along (M : Machine σ ι) (ok : σ → ι → σ → Prop) (s : σ) : List ι → Prop
  | [] => True
  | i :: is =>
    match M.step s i with
    | none => False
    | some t => ok s i t ∧ M.Along ok t is

instance Along.decidable (ok : σ → ι → σ → Prop) [∀ s i t, Decidable (ok s i t)] (s : σ) :
    (is : List ι) → Decidable (M.Along ok s is)
  | [] => .isTrue trivial
  | i :: is =>
    match h : M.step s i with
    | none => .isFalse (by simp [Along, h])
    | some t =>
      have := Along.decidable ok t is
      decidable_of_iff (ok s i t ∧ M.Along ok t is) (by simp [Along, h])

/-- Such an execution runs to its end and reaches its last state. -/
theorem Reach.of_along {ok : σ → ι → σ → Prop} {s : σ} {is : List ι} (h : M.Reach ok s)
    (along : M.Along ok s is) : ∃ t, M.run s is = some t ∧ M.Reach ok t := by
  induction is generalizing s with
  | nil => exact ⟨s, rfl, h⟩
  | cons i is ih =>
    cases hs : M.step s i with
    | none => simp [Along, hs] at along
    | some t =>
      simp only [Along, hs] at along
      obtain ⟨u, hu, reach⟩ := ih (h.step hs along.1) along.2
      exact ⟨u, by simpa [hs] using hu, reach⟩

/-- What is seen at the end of such an execution is true of the state that it reaches. -/
theorem Reach.of_along_seen {τ : Type*} {ok : σ → ι → σ → Prop} {f : σ → τ} {x : τ} {s : σ}
    {is : List ι} (h : M.Reach ok s) (along : M.Along ok s is)
    (seen : (M.run s is).map f = some x) : ∃ t, M.run s is = some t ∧ M.Reach ok t ∧ f t = x := by
  obtain ⟨t, run, reach⟩ := h.of_along along
  rw [run] at seen
  exact ⟨t, run, reach, Option.some.inj seen⟩

/-- Two side conditions hold along an execution together or one by one. -/
theorem Along.and_iff {side side' : σ → ι → σ → Prop} {s : σ} {is : List ι} :
    M.Along (fun s i t => side s i t ∧ side' s i t) s is ↔
      M.Along side s is ∧ M.Along side' s is := by
  induction is generalizing s with
  | nil => simp [Along]
  | cons i is ih =>
    cases hs : M.step s i with
    | none => simp [Along, hs]
    | some t => simp [Along, hs, ih, and_and_and_comm]

/-- What a step keeps exactly if it meets a condition holds at the end of an execution exactly
if it held before and every step has met the condition. -/
theorem Along.holds_iff {ok side : σ → ι → σ → Prop} {I P : σ → Prop} {s t : σ} {is : List ι}
    (along : M.Along ok s is) (hr : M.run s is = some t) (inv : I s)
    (keep : ∀ s i t, I s → M.step s i = some t → ok s i t → I t ∧ (P t ↔ P s ∧ side s i t)) :
    P t ↔ P s ∧ M.Along side s is := by
  induction is generalizing s with
  | nil =>
    cases hr
    exact (and_iff_left trivial).symm
  | cons i is ih =>
    obtain ⟨u, hu, hr⟩ := Option.bind_eq_some_iff.mp hr
    simp only [Along, hu] at along ⊢
    obtain ⟨inv', step⟩ := keep s i u inv hu along.1
    rw [ih along.2 hr inv', step, and_assoc]

/-- Every execution meets the unrestricted side condition. -/
theorem Along.of_run {s t : σ} {is : List ι} (hr : M.run s is = some t) : M.Along free s is := by
  induction is generalizing s with
  | nil => trivial
  | cons i is ih =>
    obtain ⟨u, hu, hr⟩ := Option.bind_eq_some_iff.mp hr
    simp only [Along, hu]
    exact ⟨trivial, ih hr⟩

/-- What every admitted step keeps holds at the end of an execution. -/
theorem Along.inv {ok : σ → ι → σ → Prop} {I : σ → Prop} {s t : σ} {is : List ι}
    (along : M.Along ok s is) (hr : M.run s is = some t) (inv : I s)
    (keep : ∀ s i t, I s → M.step s i = some t → ok s i t → I t) : I t := by
  induction is generalizing s with
  | nil => exact Option.some.inj hr ▸ inv
  | cons i is ih =>
    obtain ⟨u, hu, hr⟩ := Option.bind_eq_some_iff.mp hr
    simp only [Along, hu] at along
    exact ih along.2 hr (keep s i u inv hu along.1)

/-- An execution meets what an invariant and its own side condition give at each step. -/
theorem Along.imp {ok side : σ → ι → σ → Prop} {I : σ → Prop} {s : σ} {is : List ι}
    (along : M.Along ok s is) (inv : I s)
    (keep : ∀ s i t, I s → M.step s i = some t → ok s i t → I t ∧ side s i t) :
    M.Along side s is := by
  induction is generalizing s with
  | nil => trivial
  | cons i is ih =>
    cases hs : M.step s i with
    | none => simp [Along, hs] at along
    | some t =>
      simp only [Along, hs] at along ⊢
      obtain ⟨inv', step⟩ := keep s i t inv hs along.1
      exact ⟨step, ih along.2 inv'⟩

/-- Two side conditions that an invariant makes equivalent hold along the same executions. -/
theorem Along.congr {ok side side' : σ → ι → σ → Prop} {I : σ → Prop} {s : σ} {is : List ι}
    (along : M.Along ok s is) (inv : I s)
    (keep : ∀ s i t, I s → M.step s i = some t → ok s i t →
      I t ∧ (side s i t ↔ side' s i t)) : M.Along side s is ↔ M.Along side' s is := by
  induction is generalizing s with
  | nil => exact Iff.rfl
  | cons i is ih =>
    cases hs : M.step s i with
    | none => simp [Along, hs] at along
    | some t =>
      simp only [Along, hs] at along ⊢
      obtain ⟨inv', step⟩ := keep s i t inv hs along.1
      exact and_congr step (ih along.2 inv')

theorem run_append {s t : σ} {is : List ι} (hr : M.run s is = some t) (js : List ι) :
    M.run s (is ++ js) = M.run t js := by
  induction is generalizing s with
  | nil => cases hr; rfl
  | cons i is ih =>
    obtain ⟨u, hu, hr⟩ := Option.bind_eq_some_iff.mp hr
    rw [List.cons_append, run_cons, hu]
    exact ih hr

variable (M) in
/-- The labels that the steps of an execution have for another machine; a step without one is
hidden. -/
def trace {κ : Type*} (label : σ → ι → Option κ) (s : σ) : List ι → List κ
  | [] => []
  | i :: is =>
    match M.step s i with
    | none => []
    | some t => (label s i).toList ++ trace label t is

/-- The rule of simulation: if every admitted step is a step of another machine with the label
that it has there, or hidden, and related states stay related, then an execution is one of the
other machine with its trace. -/
theorem Along.simulates {τ κ : Type*} {N : Machine τ κ} {ok : σ → ι → σ → Prop} {R : σ → τ → Prop}
    {label : σ → ι → Option κ} {s t : σ} {x : τ} {is : List ι} (along : M.Along ok s is)
    (hr : M.run s is = some t) (start : R s x)
    (keep : ∀ s i t x, R s x → M.step s i = some t → ok s i t →
      ∃ y, N.run x (label s i).toList = some y ∧ R t y) :
    ∃ y, N.run x (M.trace label s is) = some y ∧ R t y := by
  induction is generalizing s x with
  | nil =>
    cases hr
    exact ⟨x, rfl, start⟩
  | cons i is ih =>
    obtain ⟨u, hu, hr⟩ := Option.bind_eq_some_iff.mp hr
    simp only [Along, hu] at along
    obtain ⟨y, matched, related⟩ := keep s i u x start hu along.1
    simp only [trace, hu]
    rw [run_append matched]
    exact ih along.2 hr related

/-- The rule of refinement: the same when the state of the other machine is computed from this
one. -/
theorem Along.refines {τ κ : Type*} {N : Machine τ κ} {ok : σ → ι → σ → Prop} {I : σ → Prop}
    {f : σ → τ} {label : σ → ι → Option κ} {s t : σ} {is : List ι} (along : M.Along ok s is)
    (hr : M.run s is = some t) (inv : I s)
    (keep : ∀ s i t, I s → M.step s i = some t → ok s i t →
      I t ∧ N.run (f s) (label s i).toList = some (f t)) :
    N.run (f s) (M.trace label s is) = some (f t) := by
  obtain ⟨y, run, -, rfl⟩ := along.simulates (R := fun s x => I s ∧ x = f s) hr ⟨inv, rfl⟩ <| by
    rintro s i t x ⟨inv, rfl⟩ hs side
    obtain ⟨inv', matched⟩ := keep s i t inv hs side
    exact ⟨f t, matched, inv', rfl⟩
  exact run

/-- An execution comes through a state of `P`. -/
def Visits (M : Machine σ ι) (P : σ → Prop) (s : σ) (is : List ι) : Prop :=
  ∃ before after t, is = before ++ after ∧ M.run s before = some t ∧ P t

theorem Visits.start {P : σ → Prop} {s : σ} (here : P s) (is : List ι) : M.Visits P s is :=
  ⟨[], is, s, rfl, rfl, here⟩

theorem Visits.cons {P : σ → Prop} {s t : σ} {i : ι} {is : List ι} (h : M.Visits P t is)
    (hs : M.step s i = some t) : M.Visits P s (i :: is) := by
  obtain ⟨before, after, u, rfl, hu, here⟩ := h
  exact ⟨i :: before, after, u, rfl, by rw [run_cons, hs]; exact hu, here⟩

/-- The rule of moments: if only a step that starts in a state of `P` breaks the invariant, then
it holds at the end of an execution, or the execution has come through a state of `P`. -/
theorem Along.inv_or_visits {ok : σ → ι → σ → Prop} {may : ι → Prop} {I P : σ → Prop} {s t : σ}
    {is : List ι} (along : M.Along ok s is) (hr : M.run s is = some t) (all : ∀ i ∈ is, may i)
    (inv : I s)
    (keep : ∀ s i t, I s → M.step s i = some t → ok s i t → may i → P s ∨ I t) :
    M.Visits P s is ∨ I t := by
  induction is generalizing s with
  | nil => exact Or.inr (Option.some.inj hr ▸ inv)
  | cons i is ih =>
    obtain ⟨u, hu, hr⟩ := Option.bind_eq_some_iff.mp hr
    simp only [Along, hu] at along
    rcases keep s i u inv hu along.1 (all i List.mem_cons_self) with here | inv'
    · exact Or.inl (.start here _)
    · have later := ih along.2 hr (fun j hj => all j (List.mem_cons_of_mem i hj)) inv'
      exact later.imp_left fun visits => visits.cons hu

/-- Two such executions with the same labels keep what every two admitted steps keep. -/
theorem Along.related {τ : Type*} {N : Machine τ ι} {ok : σ → ι → σ → Prop}
    {ok' : τ → ι → τ → Prop} {R : σ → τ → Prop} {s s' : σ} {t t' : τ} {is : List ι}
    (along : M.Along ok s is) (along' : N.Along ok' t is) (hs : M.run s is = some s')
    (ht : N.run t is = some t') (start : R s t)
    (keep : ∀ s t i s' t', R s t → M.step s i = some s' → N.step t i = some t' →
      ok s i s' → ok' t i t' → R s' t') : R s' t' := by
  induction is generalizing s t with
  | nil =>
    cases hs
    cases ht
    exact start
  | cons i is ih =>
    obtain ⟨u, hu, hs⟩ := Option.bind_eq_some_iff.mp hs
    obtain ⟨v, hv, ht⟩ := Option.bind_eq_some_iff.mp ht
    simp only [Along, hu] at along
    simp only [Along, hv] at along'
    exact ih along.2 along'.2 hs ht (keep _ _ _ _ _ start hu hv along.1 along'.1)

end Machine

end Fuxi.Lib
