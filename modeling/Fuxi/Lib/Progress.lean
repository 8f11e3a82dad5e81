import Mathlib.Algebra.BigOperators.Group.List.Basic
import Mathlib.Algebra.GroupWithZero.Nat
import Mathlib.Order.WellFounded
import Mathlib.Order.RelClasses
import Fuxi.Lib.Machine

/-!
# Progress

If every move pays for itself from a potential, then a run is at most as long as the potential at
its start and the costs that its moves add.

A schedule names at each moment whose turn it is, and whoever cannot move rests. A system in
which every move that changes anything lowers a measure comes to its goal under every fair
schedule, because whoever can help gets its turn in the end. Moves that change nothing, such as
one more round of a waiting loop, are allowed.
-/

namespace Fuxi.Lib

variable {σ ι : Type*}

/-- The rule of potentials: the moves that pay are bounded by the potential of the first state and
the costs that all moves add. -/
theorem Machine.run_countP_le {M : Machine σ ι} {potential : σ → ℕ} {cost : ι → ℕ} {inv : σ → Prop}
    {ok : ι → Prop} {paying : ι → Bool}
    (pays : ∀ s i t, inv s → ok i → M.step s i = some t →
      inv t ∧ potential t + (paying i).toNat ≤ potential s + cost i)
    {s t : σ} {is : List ι} (start : inv s) (all : ∀ i ∈ is, ok i) (hr : M.run s is = some t) :
    inv t ∧ is.countP paying + potential t ≤ potential s + (is.map cost).sum := by
  induction is generalizing s with
  | nil =>
    cases hr
    exact ⟨start, by simp⟩
  | cons i is ih =>
    obtain ⟨u, hu, hr⟩ := Option.bind_eq_some_iff.mp hr
    obtain ⟨keeps, pay⟩ := pays s i u start (all i List.mem_cons_self) hu
    obtain ⟨last, rest⟩ := ih keeps (fun j hj => all j (List.mem_cons_of_mem i hj)) hr
    refine ⟨last, ?_⟩
    have counted : (i :: is).countP paying = is.countP paying + (paying i).toNat := by
      rw [List.countP_cons]
      cases paying i <;> rfl
    simp only [counted, List.map_cons, List.sum_cons]
    omega

/-- If every move pays, the whole run is bounded. -/
theorem Machine.run_length_le {M : Machine σ ι} {potential : σ → ℕ} {cost : ι → ℕ} {inv : σ → Prop}
    {ok : ι → Prop}
    (pays : ∀ s i t, inv s → ok i → M.step s i = some t →
      inv t ∧ potential t + 1 ≤ potential s + cost i)
    {s t : σ} {is : List ι} (start : inv s) (all : ∀ i ∈ is, ok i) (hr : M.run s is = some t) :
    inv t ∧ is.length + potential t ≤ potential s + (is.map cost).sum := by
  have counted : inv t ∧
      is.countP (fun _ => true) + potential t ≤ potential s + (is.map cost).sum :=
    Machine.run_countP_le pays start all hr
  rwa [List.countP_true] at counted

/-! ## Fair schedules -/

/-- The state after `n` turns. -/
def play (next : σ → ι → Option σ) (s : σ) (turn : ℕ → ι) : ℕ → σ
  | 0 => s
  | n + 1 => (next (play next s turn n) (turn n)).getD (play next s turn n)

/-- Everyone in `busy` gets its turn again and again. -/
def FairFor (busy : ι → Prop) (turn : ℕ → ι) : Prop :=
  ∀ i, busy i → ∀ n, ∃ m, n ≤ m ∧ turn m = i

variable {next : σ → ι → Option σ} {s : σ} {turn : ℕ → ι}

theorem play_succ_of_some {n : ℕ} {t : σ} (h : next (play next s turn n) (turn n) = some t) :
    play next s turn (n + 1) = t := by
  simp [play, h]

theorem play_succ_of_none {n : ℕ} (h : next (play next s turn n) (turn n) = none) :
    play next s turn (n + 1) = play next s turn n := by
  simp [play, h]

/-- Playing on from a later state. -/
theorem play_add (n m : ℕ) :
    play next s turn (n + m) = play next (play next s turn n) (fun k => turn (n + k)) m := by
  induction m with
  | zero => rfl
  | succ m ih =>
    change (next (play next s turn (n + m)) _).getD (play next s turn (n + m)) = _
    rw [ih]
    rfl

/-- Where nobody can move, nothing happens any more. -/
theorem play_of_stuck (stuck : ∀ i, next s i = none) (n : ℕ) : play next s turn n = s := by
  induction n with
  | zero => rfl
  | succ n ih => rw [play, ih, stuck]; rfl

/-- What holds until nobody can move any more holds at every moment. -/
theorem play_forall_of_stuck {P : σ → Prop} {m : ℕ}
    (stuck : ∀ i, next (play next s turn m) i = none) (early : ∀ n ≤ m, P (play next s turn n))
    (n : ℕ) : P (play next s turn n) := by
  obtain le | ge := le_total n m
  · exact early n le
  · obtain ⟨k, rfl⟩ := Nat.exists_eq_add_of_le ge
    rw [play_add, play_of_stuck stuck]
    exact early m le_rfl

/-- What every admitted move keeps holds at every moment. -/
theorem play_inv {inv : σ → Prop} {ok : σ → ι → Prop} (start : inv s)
    (keep : ∀ s i t, inv s → ok s i → next s i = some t → inv t)
    (side : ∀ n, ok (play next s turn n) (turn n)) (n : ℕ) : inv (play next s turn n) := by
  induction n with
  | zero => exact start
  | succ n ih =>
    cases h : next (play next s turn n) (turn n) with
    | none => rw [play_succ_of_none h]; exact ih
    | some t => rw [play_succ_of_some h]; exact keep _ _ _ ih (side n) h

/-- The rule of progress: every admitted move rests or lowers a measure, and where the goal is
not reached somebody who is busy can make a move that does not rest. -/
theorem eventually_of_fair {β : Type*} [Preorder β] [WellFoundedLT β] {μ : σ → β}
    {inv goal : σ → Prop} {ok : σ → ι → Prop} {busy : ι → Prop} (start : inv s)
    (keep : ∀ s i t, inv s → ok s i → next s i = some t → inv t)
    (lower : ∀ s i t, inv s → ok s i → next s i = some t → t = s ∨ μ t < μ s)
    (help : ∀ s, inv s → ¬ goal s → ∃ i, busy i ∧ ∃ t, next s i = some t ∧ t ≠ s)
    (fair : FairFor busy turn) (side : ∀ n, ok (play next s turn n) (turn n)) :
    ∃ n, goal (play next s turn n) := by
  have invs := fun n => play_inv start keep side n
  have one : ∀ n, play next s turn (n + 1) = play next s turn n ∨
      μ (play next s turn (n + 1)) < μ (play next s turn n) := by
    intro n
    cases h : next (play next s turn n) (turn n) with
    | none => exact Or.inl (play_succ_of_none h)
    | some t => rw [play_succ_of_some h]; exact lower _ _ _ (invs n) (side n) h
  -- the measure stays low, and the same measure means the same state
  have since : ∀ n m, play next s turn (n + m) = play next s turn n ∨
      μ (play next s turn (n + m)) < μ (play next s turn n) := by
    intro n m
    induction m with
    | zero => exact Or.inl rfl
    | succ m ih =>
      rcases one (n + m) with same | less
      · rw [← Nat.add_assoc, same]; exact ih
      · rcases ih with eq | lt
        · rw [eq] at less; exact Or.inr less
        · exact Or.inr (less.trans lt)
  have drop : ∀ n, ¬ goal (play next s turn n) →
      ∃ m, μ (play next s turn m) < μ (play next s turn n) := by
    intro n far
    obtain ⟨i, hi, t, ht, ne⟩ := help _ (invs n) far
    obtain ⟨m, hm, rfl⟩ := fair i hi n
    obtain ⟨k, rfl⟩ := Nat.exists_eq_add_of_le hm
    rcases since n k with same | less
    · rw [← same] at ht ne
      have low := (lower _ _ _ (invs _) (side _) ht).resolve_left ne
      rw [← play_succ_of_some ht, same] at low
      exact ⟨_, low⟩
    · exact ⟨_, less⟩
  by_contra never
  push Not at never
  have descend : ∀ b n, μ (play next s turn n) = b → False := by
    intro b
    induction b using WellFoundedLT.induction with
    | ind b ih =>
      rintro n rfl
      obtain ⟨m, hm⟩ := drop n (never n)
      exact ih _ hm m rfl
  exact descend _ 0 rfl

end Fuxi.Lib
