import Mathlib.Algebra.Order.Group.Multiset
import Fuxi.Lib.Machine

/-!
# Suppliers

A supplier gives out items on request and takes them back. Its contract says which items its
clients have: a request adds as many items as it asks for, and items that clients have can be
taken back. A supplier may be a client of another one, so contracts are kept by requests that
are made one item at a time, and by all runs of the clients.
-/

namespace Fuxi.Lib

variable {σ ι α : Type*}

/-- An object with a state; calls come from callers `ι`. There is no result if a call does not
return, or touches what is not the object's. -/
structure Supplier (σ ι α : Type*) where
  give : ι → Nat → σ → Option (List α × σ)
  take : ι → List α → σ → Option σ

/-- One request after the other. -/
def gather (one : σ → Option (List α × σ)) : Nat → σ → Option (List α × σ)
  | 0, s => some ([], s)
  | n + 1, s => (gather one n s).bind fun (xs, t) => (one t).map fun (ys, u) => (xs ++ ys, u)

/-- If each request brings one more item, then so many requests bring so many items. -/
theorem gather_spec {one : σ → Option (List α × σ)} {Out : Multiset α → σ → Prop}
    (single : ∀ out s, Out out s → ∃ x t, one s = some ([x], t) ∧ Out (out + {x}) t)
    {out : Multiset α} {s : σ} (h : Out out s) (n : Nat) :
    ∃ xs t, gather one n s = some (xs, t) ∧ xs.length = n ∧ Out (out + ↑xs) t := by
  induction n with
  | zero => exact ⟨[], s, rfl, rfl, by rwa [Multiset.coe_nil, add_zero]⟩
  | succ n ih =>
    obtain ⟨xs, t, ret, length, had⟩ := ih
    obtain ⟨x, u, last, has⟩ := single _ t had
    refine ⟨xs ++ [x], u, ?_, by rw [List.length_append, length]; rfl, ?_⟩
    · rw [gather, ret]
      simp [last]
    · rwa [← Multiset.coe_add, ← add_assoc]

/-- Fewer requests bring the first items. -/
theorem gather_fewer {one : σ → Option (List α × σ)} {n k : Nat} {s t : σ} {xs : List α}
    (ret : gather one n s = some (xs, t)) (le : k ≤ n) :
    ∃ ys u, gather one k s = some (ys, u) ∧ ys <+: xs := by
  induction n generalizing xs t with
  | zero =>
    obtain rfl := Nat.le_zero.mp le
    exact ⟨xs, t, ret, List.prefix_rfl⟩
  | succ n ih =>
    rcases Nat.lt_or_eq_of_le le with lt | rfl
    · rw [gather] at ret
      obtain ⟨⟨zs, v⟩, first, ret⟩ := Option.bind_eq_some_iff.mp ret
      obtain ⟨⟨last, w⟩, -, eq⟩ := Option.map_eq_some_iff.mp ret
      cases eq
      obtain ⟨ys, u, few, before⟩ := ih first (Nat.le_of_lt_succ lt)
      exact ⟨ys, u, few, before.trans (List.prefix_append ..)⟩
    · exact ⟨xs, t, ret, List.prefix_rfl⟩

namespace Supplier

variable (S : Supplier σ ι α)

/-- Items are taken back one at a time. -/
def takeEach (i : ι) (xs : List α) (s : σ) : Option σ := xs.foldlM (fun s x => S.take i [x] s) s

/-- The items that so many requests for one item would bring. -/
def upcoming [Zero α] (i : ι) (s : σ) (k : Nat) : α :=
  ((gather (S.give i 1) (k + 1) s).bind fun got => got.1[k]?).getD 0

/-- `Out out s` says that the clients of the object in state `s` have the items `out`; the
callers that `may` meets can make calls. -/
structure Contract (may : ι → Prop) (Out : Multiset α → σ → Prop) : Prop where
  give : ∀ {i out s}, may i → Out out s → ∀ n,
    ∃ xs t, S.give i n s = some (xs, t) ∧ xs.length = n ∧ Out (out + ↑xs) t
  take : ∀ {i out s}, may i → ∀ xs : List α, Out (out + ↑xs) s →
    ∃ t, S.take i xs s = some t ∧ Out out t

namespace Contract

variable {S} {may : ι → Prop} {Out : Multiset α → σ → Prop} (h : S.Contract may Out)
include h

theorem single {i : ι} (can : may i) (out : Multiset α) (s : σ) (has : Out out s) :
    ∃ x t, S.give i 1 s = some ([x], t) ∧ Out (out + {x}) t := by
  obtain ⟨xs, t, ret, length, has⟩ := h.give can has 1
  obtain ⟨x, rfl⟩ := List.length_eq_one_iff.mp length
  exact ⟨x, t, ret, has⟩

theorem gather {i : ι} (can : may i) {out : Multiset α} {s : σ} (has : Out out s) (n : Nat) :
    ∃ xs t, gather (S.give i 1) n s = some (xs, t) ∧ xs.length = n ∧ Out (out + ↑xs) t :=
  gather_spec (h.single can) has n

/-- What requests for one item bring can be known before. -/
theorem gather_upcoming [Zero α] {i : ι} (can : may i) {out : Multiset α} {s t : σ}
    (has : Out out s) {n : Nat} {xs : List α} (ret : Lib.gather (S.give i 1) n s = some (xs, t)) :
    (List.range n).map (S.upcoming i s) = xs := by
  obtain ⟨_, _, same, length, -⟩ := h.gather can has n
  cases ret.symm.trans same
  refine List.ext_getElem (by simp [length]) fun k lt lt' => ?_
  obtain ⟨ys, u, few, before⟩ := gather_fewer ret (Nat.succ_le_of_lt (length ▸ lt'))
  obtain ⟨_, _, same, long, -⟩ := h.gather can has (k + 1)
  cases few.symm.trans same
  have inside : k < ys.length := long ▸ Nat.lt_succ_self k
  rw [List.getElem_map, List.getElem_range, upcoming, few, Option.bind_some,
    List.getElem?_eq_getElem inside, Option.getD_some]
  exact before.getElem inside

theorem takeEach {i : ι} (can : may i) {out : Multiset α} (xs : List α) {s : σ}
    (has : Out (out + ↑xs) s) : ∃ t, S.takeEach i xs s = some t ∧ Out out t := by
  induction xs generalizing s with
  | nil => exact ⟨s, rfl, by simpa using has⟩
  | cons x xs ih =>
    have first : Out (out + ↑xs + ↑[x]) s := by
      rwa [add_assoc, Multiset.coe_add, ← Multiset.coe_add, add_comm (xs : Multiset α),
        Multiset.coe_add]
    obtain ⟨t, ret, has⟩ := h.take can [x] first
    obtain ⟨u, rest, none⟩ := ih has
    exact ⟨u, by simpa [Supplier.takeEach, ret] using rest, none⟩

end Contract

/-- An object and the items that its clients have together. -/
structure Clients (σ α : Type*) where
  object : σ
  held : Multiset α

inductive Demand (ι α : Type*)
  | give (i : ι) (num : Nat)
  | take (i : ι) (items : List α)

/-- One call; clients give back items that they have. -/
def serve [DecidableEq α] (s : Clients σ α) : Demand ι α → Option (Clients σ α)
  | .give i num => (S.give i num s.object).map fun (items, object) => ⟨object, s.held + ↑items⟩
  | .take i items =>
    if ↑items ≤ s.held then
      (S.take i items s.object).map fun object => ⟨object, s.held - ↑items⟩
    else none

/-- The runs of the clients of an object. -/
def clients [DecidableEq α] (start : σ → Prop) : Machine (Clients σ α) (Demand ι α) where
  start s := start s.object ∧ s.held = 0
  step := S.serve

/-- The caller is one that can make the call. -/
def Demand.By (may : ι → Prop) : Demand ι α → Prop
  | .give i _ | .take i _ => may i

variable {S} {may : ι → Prop} {Out : Multiset α → σ → Prop} [DecidableEq α]

theorem Contract.serve (h : S.Contract may Out) {s t : Clients σ α} {m : Demand ι α}
    (has : Out s.held s.object) (hs : S.serve s m = some t) (by' : m.By may) :
    Out t.held t.object := by
  cases m with
  | give i num =>
    obtain ⟨⟨items, object⟩, ret, rfl⟩ := Option.map_eq_some_iff.mp hs
    obtain ⟨_, _, same, -, has⟩ := h.give by' has num
    cases ret.symm.trans same
    exact has
  | take i items =>
    obtain ⟨le, hs⟩ := Option.ite_none_right_eq_some.mp hs
    obtain ⟨object, ret, rfl⟩ := Option.map_eq_some_iff.mp hs
    rw [← Multiset.sub_add_cancel le] at has
    obtain ⟨_, same, has⟩ := h.take by' items has
    cases ret.symm.trans same
    exact has

/-- The rule of clients: in every run the object knows what its clients have. -/
theorem Contract.out_of_reach (h : S.Contract may Out) {start : σ → Prop}
    {ok : Clients σ α → Demand ι α → Clients σ α → Prop} {s : Clients σ α}
    (reach : (S.clients start).Reach ok s) (base : ∀ o, start o → Out 0 o)
    (callers : ∀ s m t, ok s m t → m.By may) : Out s.held s.object := by
  refine reach.inv (P := fun s => Out s.held s.object) (fun s start => ?_)
    fun s m t has hs side => h.serve has hs (callers s m t side)
  obtain ⟨start, none⟩ := start
  rw [none]
  exact base _ start

end Supplier

end Fuxi.Lib
