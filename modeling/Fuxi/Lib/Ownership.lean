import Mathlib.Data.List.Nodup
import Mathlib.Data.List.Perm.Subperm
import Mathlib.Tactic.TypeStar

/-!
# Tokens that sit in one place each

A system hands a fixed list of tokens around among places. `Owned` says that every
token of the list sits in exactly one place and that nothing else sits anywhere. A
step of the system moves at most one token, and counting tokens bounds how many
places are taken at once.
-/

namespace Fuxi.Lib

/-- `At π x` says that token `x` sits in place `π`. -/
structure Owned {P X : Type*} (ids : List X) (At : P → X → Prop) : Prop where
  unique : ∀ {π ρ x}, At π x → At ρ x → π = ρ
  cover : ∀ x, x ∈ ids ↔ ∃ π, At π x

namespace Owned

variable {P X : Type*} {ids : List X} {At At' : P → X → Prop}

/-- A step that moves no token. -/
theorem congr (h : Owned ids At) (same : ∀ π x, At' π x ↔ At π x) : Owned ids At' := by
  have eq : At' = At := funext fun π => funext fun x => propext (same π x)
  rw [eq]; exact h

/-- A step that moves the token `z` from `a` to `b`. -/
theorem move (h : Owned ids At) {a b : P} {z : X} (there : At a z)
    (moved : ∀ π x, At' π x ↔ (At π x ∧ ¬(π = a ∧ x = z)) ∨ (π = b ∧ x = z)) :
    Owned ids At' := by
  have stays : ∀ {π}, At π z → ¬(π = a ∧ z = z) → False := fun hat ne =>
    ne ⟨h.unique hat there, rfl⟩
  refine ⟨?_, fun x => ?_⟩
  · intro π ρ x hπ hρ
    rw [moved] at hπ hρ
    obtain ⟨hπ, neπ⟩ | ⟨rfl, rfl⟩ := hπ
    · obtain ⟨hρ, -⟩ | ⟨rfl, rfl⟩ := hρ
      · exact h.unique hπ hρ
      · exact (stays hπ neπ).elim
    · obtain ⟨hρ, neρ⟩ | ⟨rfl, -⟩ := hρ
      · exact (stays hρ neρ).elim
      · rfl
  · rw [h.cover]
    by_cases e : x = z
    · subst e
      exact ⟨fun _ => ⟨b, (moved b x).mpr (Or.inr ⟨rfl, rfl⟩)⟩, fun _ => ⟨a, there⟩⟩
    · exact exists_congr fun π => by simp [moved, e]

/-- A step that moves all tokens from `a` to `b`. -/
theorem merge (h : Owned ids At) {a b : P} (gone : ∀ x, ¬At' a x)
    (got : ∀ x, At' b x ↔ At b x ∨ At a x)
    (same : ∀ π, π ≠ a → π ≠ b → ∀ x, At' π x ↔ At π x) : Owned ids At' := by
  -- where a token was before the step
  have before : ∀ {π x}, At' π x → At π x ∧ π ≠ a ∨ At a x ∧ π = b := by
    intro π x sits
    have ne : π ≠ a := by
      rintro rfl
      exact gone x sits
    by_cases e : π = b
    · subst e
      exact ((got x).mp sits).imp (fun old => ⟨old, ne⟩) fun old => ⟨old, rfl⟩
    · exact Or.inl ⟨(same π ne e x).mp sits, ne⟩
  refine ⟨?_, fun x => ?_⟩
  · intro π ρ x hπ hρ
    obtain ⟨hπ, ne⟩ | ⟨hπ, rfl⟩ := before hπ <;> obtain ⟨hρ, ne'⟩ | ⟨hρ, rfl⟩ := before hρ
    · exact h.unique hπ hρ
    · exact (ne (h.unique hπ hρ)).elim
    · exact (ne' (h.unique hρ hπ)).elim
    · rfl
  · rw [h.cover]
    constructor
    · rintro ⟨π, sits⟩
      by_cases ea : π = a
      · exact ⟨b, (got x).mpr (Or.inr (ea ▸ sits))⟩
      · by_cases eb : π = b
        · exact ⟨b, (got x).mpr (Or.inl (eb ▸ sits))⟩
        · exact ⟨π, (same π ea eb x).mpr sits⟩
    · rintro ⟨π, sits⟩
      exact (before sits).elim (fun old => ⟨π, old.1⟩) fun old => ⟨a, old.1⟩

/-- A step that makes the tokens `new` and puts them into the place `b`. -/
theorem extend (h : Owned ids At) (b : P) (new : List X) {ids' : List X}
    (fresh : ∀ x ∈ new, x ∉ ids) (grown : ∀ x, x ∈ ids' ↔ x ∈ ids ∨ x ∈ new)
    (made : ∀ π x, At' π x ↔ At π x ∨ π = b ∧ x ∈ new) : Owned ids' At' := by
  have nowhere : ∀ {π x}, x ∈ new → ¬At π x := fun mem sits =>
    fresh _ mem ((h.cover _).mpr ⟨_, sits⟩)
  refine ⟨?_, fun x => ?_⟩
  · intro π ρ x hπ hρ
    rw [made] at hπ hρ
    obtain hπ | ⟨rfl, mem⟩ := hπ
    · obtain hρ | ⟨rfl, mem⟩ := hρ
      · exact h.unique hπ hρ
      · exact (nowhere mem hπ).elim
    · obtain hρ | ⟨rfl, -⟩ := hρ
      · exact (nowhere mem hρ).elim
      · rfl
  · rw [grown, h.cover]
    constructor
    · rintro (⟨π, sits⟩ | mem)
      · exact ⟨π, (made π x).mpr (Or.inl sits)⟩
      · exact ⟨b, (made b x).mpr (Or.inr ⟨rfl, mem⟩)⟩
    · rintro ⟨π, sits⟩
      exact ((made π x).mp sits).imp (fun sits => ⟨π, sits⟩) And.right

/-- A step that makes the token `z` and puts it into the place `b`. -/
theorem create (h : Owned ids At) {b : P} {z : X} {ids' : List X} (new : z ∉ ids)
    (grown : ∀ x, x ∈ ids' ↔ x ∈ ids ∨ x = z)
    (made : ∀ π x, At' π x ↔ At π x ∨ π = b ∧ x = z) : Owned ids' At' :=
  h.extend b [z] (by simpa using new) (by simpa using grown) (by simpa using made)

/-- A step that takes the token `z` away. -/
theorem remove (h : Owned ids At) {z : X} {ids' : List X} (left : ∀ x, x ∈ ids' ↔ x ∈ ids ∧ x ≠ z)
    (gone : ∀ π x, At' π x ↔ At π x ∧ x ≠ z) : Owned ids' At' := by
  refine ⟨fun hπ hρ => ?_, fun x => ?_⟩
  · exact h.unique ((gone _ _).mp hπ).1 ((gone _ _).mp hρ).1
  · simp only [left, gone, h.cover, exists_and_right]

/-- Tokens that sit in places with different indices are different, so there are at
most as many of them as there are tokens. -/
theorem length_le (h : Owned ids At) {l : List X} (pos : Nat → P)
    (sits : ∀ i x, l[i]? = some x → At (pos i) x)
    (inj : ∀ i j, i < l.length → j < l.length → pos i = pos j → i = j) :
    l.length ≤ ids.length := by
  have nodup : l.Nodup := by
    rw [List.nodup_iff_injective_getElem]
    intro i j eq
    have hi := sits i _ (List.getElem?_eq_getElem i.isLt)
    have hj := sits j _ (List.getElem?_eq_getElem j.isLt)
    simp only at eq
    rw [eq] at hi
    exact Fin.ext (inj i j i.isLt j.isLt (h.unique hi hj))
  refine (List.subperm_of_subset nodup fun x hx => ?_).length_le
  obtain ⟨i, hi⟩ := List.getElem?_of_mem hx
  exact (h.cover x).mpr ⟨pos i, sits i x hi⟩

end Owned

end Fuxi.Lib
