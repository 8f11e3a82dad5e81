import Mathlib.Data.List.Nodup
import Mathlib.Logic.Function.Basic
import Mathlib.Tactic.TypeStar

/-!
# Linked lists in a heap

A heap maps addresses to nodes, and every node has the address of the next one, which is zero at
the end. A list in the heap has no cycle, since it has an end, so that its first node can be taken
out of the heap. `Chained` says that the nodes of a list meet a condition, which may depend on the
address; a change of the heap is a frame rule.
-/

namespace Fuxi.Lib

variable {N : Type*} {next : N → Nat} {heap heap' : Nat → Option N} {a b : Nat} {l l' : List Nat}

/-- The nodes from `a` on have the addresses `l`. -/
inductive Linked (next : N → Nat) (heap : Nat → Option N) : Nat → List Nat → Prop
  | null : Linked next heap 0 []
  | node {a : Nat} {n : N} {l : List Nat} (ne : a ≠ 0) (here : heap a = some n)
      (rest : Linked next heap (next n) l) : Linked next heap a (a :: l)

namespace Linked

/-- The heap determines the list. -/
theorem unique (h : Linked next heap a l) (h' : Linked next heap a l') : l = l' := by
  induction h generalizing l' with
  | null =>
    cases h' with
    | null => rfl
    | node ne here rest => exact absurd rfl ne
  | node ne here rest ih =>
    cases h' with
    | null => exact absurd rfl ne
    | node ne' here' rest' =>
      rw [here] at here'
      cases here'
      rw [ih rest']

/-- The list from one of its nodes on. -/
theorem of_mem (h : Linked next heap a l) (mem : b ∈ l) :
    ∃ r, Linked next heap b (b :: r) ∧ r.length < l.length := by
  induction h with
  | null => cases mem
  | node ne here rest ih =>
    obtain rfl | mem := List.mem_cons.mp mem
    · exact ⟨_, .node ne here rest, Nat.lt_succ_self _⟩
    · obtain ⟨r, linked, less⟩ := ih mem
      exact ⟨r, linked, Nat.lt_succ_of_lt less⟩

/-- A list has no cycle. -/
theorem notMem_tail (h : Linked next heap a (a :: l)) : a ∉ l := by
  intro mem
  cases h with
  | node ne here rest =>
    obtain ⟨r, linked, less⟩ := rest.of_mem mem
    have same := unique linked (.node ne here rest)
    rw [List.cons.inj same |>.2] at less
    exact Nat.lt_irrefl _ less

theorem nodup (h : Linked next heap a l) : l.Nodup := by
  induction h with
  | null => exact .nil
  | node ne here rest ih => exact List.nodup_cons.mpr ⟨notMem_tail (.node ne here rest), ih⟩

/-- A list stays where it is when its nodes do. -/
theorem frame (h : Linked next heap a l) (same : ∀ b ∈ l, heap' b = heap b) :
    Linked next heap' a l := by
  induction h with
  | null => exact .null
  | node ne here rest ih =>
    refine .node ne ((same _ List.mem_cons_self).trans here) (ih fun b mem => ?_)
    exact same b (List.mem_cons_of_mem _ mem)

theorem exists_of_mem (h : Linked next heap a l) (mem : b ∈ l) : ∃ n, heap b = some n := by
  obtain ⟨r, linked, -⟩ := h.of_mem mem
  cases linked with
  | node ne here rest => exact ⟨_, here⟩

end Linked

/-! ## Lists of good nodes -/

/-- The nodes from `a` on lie in the heap and are good. -/
def Chained (next : N → Nat) (good : Nat → N → Prop) (heap : Nat → Option N) (a : Nat) : Prop :=
  ∃ l, Linked next heap a l ∧ ∀ b ∈ l, ∀ n, heap b = some n → good b n

namespace Chained

variable {good good' : Nat → N → Prop}

theorem null : Chained next good heap 0 := ⟨[], .null, by simp⟩

/-- A node in front of a list. -/
theorem cons {n : N} (ne : a ≠ 0) (here : heap a = some n) (ok : good a n)
    (rest : Chained next good heap (next n)) : Chained next good heap a := by
  obtain ⟨l, linked, all⟩ := rest
  refine ⟨a :: l, .node ne here linked, fun b mem m there => ?_⟩
  obtain rfl | mem := List.mem_cons.mp mem
  · rw [here] at there
    cases there
    exact ok
  · exact all b mem m there

/-- A list stays when its nodes stay where they are, and are good in another sense. -/
theorem frame (h : Chained next good heap a)
    (same : ∀ b n, heap b = some n → good b n → heap' b = some n ∧ good' b n) :
    Chained next good' heap' a := by
  obtain ⟨l, linked, all⟩ := h
  have stays : ∀ b ∈ l, ∀ n, heap b = some n → heap' b = some n ∧ good' b n :=
    fun b mem n here => same b n here (all b mem n here)
  refine ⟨l, linked.frame fun b mem => ?_, fun b mem n there => ?_⟩
  · obtain ⟨n, here⟩ := linked.exists_of_mem mem
    rw [here, (stays b mem n here).1]
  · obtain ⟨m, here⟩ := linked.exists_of_mem mem
    obtain ⟨there', ok⟩ := stays b mem m here
    rw [there] at there'
    cases there'
    exact ok

/-- The first node is taken out of the heap. -/
theorem tail (h : Chained next good heap a) (ne : a ≠ 0) : ∃ n, heap a = some n ∧ good a n ∧
    Chained next good (Function.update heap a none) (next n) := by
  obtain ⟨l, linked, all⟩ := h
  have acyclic := linked
  cases linked with
  | null => exact absurd rfl ne
  | node _ here rest =>
    refine ⟨_, here, all a List.mem_cons_self _ here, _, rest.frame fun b mem => ?_,
      fun b mem n there => ?_⟩
    · exact Function.update_of_ne (ne_of_mem_of_not_mem mem acyclic.notMem_tail) _ _
    · rw [Function.update_of_ne (ne_of_mem_of_not_mem mem acyclic.notMem_tail)] at there
      exact all b (List.mem_cons_of_mem _ mem) n there

end Chained

end Fuxi.Lib
