import Mathlib.Order.Nat
import Fuxi.Base.IdAllocator.Exclusive

/-!
# No id is returned twice

The version of the head counts the deallocations, and an id that is taken from the free list gets
it. A value on the free list was returned with smaller versions only, since it has been
deallocated afterwards; a new value was never returned.
-/

namespace Fuxi.Base.IdAllocator

open Lib

variable {Tid : Type*} {T : IdType}

/-- The allocator with the ids that `allocate` has returned, the last one first. -/
structure History (Tid : Type*) where
  state : State Tid
  returned : List VersionedValue

namespace History

/-- What a step of `allocate` returns. -/
def returns : Move → Pc → List VersionedValue
  | .step, .storeActive id => [id]
  | .step, .ensure id => [id]
  | _, _ => []

def step [DecidableEq Tid] (T : IdType) (s : History Tid) (m : Tid × Move) :
    Option (History Tid) :=
  (s.state.step T m).map fun state => ⟨state, returns m.2 (s.state.pc m.1) ++ s.returned⟩

end History

/-- The interleavings of any number of threads, with what they have got. -/
def history (Tid : Type*) [DecidableEq Tid] (T : IdType) (blank : Nat → Nat) :
    Machine (History Tid) (Tid × Move) where
  start s := s = ⟨unused Tid T blank, []⟩
  step := History.step T

/-- `next_value` stays below the two marks, and there are fewer deallocations than versions. -/
def fewDeallocations (T : IdType) (_ : History Tid) (_ : Tid × Move) (s : History Tid) : Prop :=
  s.state.nextValue ≤ T.size - 2 ∧ s.state.pushes < T.size

instance (s : History Tid) (m : Tid × Move) (s' : History Tid) :
    Decidable (fewDeallocations T s m s') :=
  inferInstanceAs (Decidable (_ ∧ _))

/-- Each id was returned with a larger version than all earlier ones of the same value. -/
def Increasing (returned : List VersionedValue) : Prop :=
  returned.Pairwise fun later earlier =>
    later.value = earlier.value → earlier.version < later.version

theorem Increasing.nodup {returned : List VersionedValue} (h : Increasing returned) :
    returned.Nodup := by
  refine h.imp fun {a b} lt eq => ?_
  subst eq
  exact Nat.lt_irrefl _ (lt rfl)

/-- The id that `allocate` is about to return. -/
def Pc.takes : Pc → Option VersionedValue
  | .storeActive id | .ensure id => some id
  | _ => none

theorem Pc.carries_of_takes {p : Pc} {id : VersionedValue} (h : p.takes = some id) :
    p.carries = some id.value := by
  cases p with
  | storeActive _ | ensure _ =>
    cases h
    rfl
  | _ => cases h

theorem takes_look (head : VersionedValue) : (State.look T head).takes = none := by
  unfold State.look
  split_ifs <;> rfl

/-- Ids that have been returned have versions up to the number of deallocations, smaller ones if
their value is free, and smaller ones than an id that is about to be returned. -/
structure Aged (s : State Tid) (returned : List VersionedValue) : Prop where
  increasing : Increasing returned
  given : ∀ id ∈ returned, id.value < s.nextValue
  old : ∀ id ∈ returned, id.version ≤ s.pushes
  free : ∀ id ∈ returned, id.value ∈ s.free → id.version < s.pushes
  takes : ∀ t id, (s.pc t).takes = some id → id.version ≤ s.pushes ∧
    ∀ id' ∈ returned, id'.value = id.value → id'.version < id.version

namespace Aged

variable {s s' : State Tid} {t : Tid} {returned : List VersionedValue}

theorem start (blank : Nat → Nat) : Aged (unused Tid T blank) [] where
  increasing := .nil
  given := by simp
  old := by simp
  free := by simp
  takes t id h := by simp [unused, Pc.takes] at h

variable [DecidableEq Tid]

/-- A step after which no value is free that was not, and the thread is not about to return an id
that it was not about to return before. -/
theorem frame (h : Aged s returned) {p : Pc} (pc : s'.pc = Function.update s.pc t p)
    (nextValue : s'.nextValue = s.nextValue) (pushes : s'.pushes = s.pushes)
    (free : s'.free ⊆ s.free) (takes : p.takes = none) : Aged s' returned := by
  refine ⟨h.increasing, nextValue ▸ h.given, pushes ▸ h.old, fun id mem mem' => ?_,
    fun u id hu => ?_⟩
  · rw [pushes]
    exact h.free id mem (free mem')
  · rw [pc, Function.update_apply] at hu
    split_ifs at hu with e
    · rw [takes] at hu
      cases hu
    · rw [pushes]
      exact h.takes u id hu

/-- An id that is taken from the free list has the number of deallocations for its version. -/
theorem pop (h : Aged s returned) (inv : Inv T s) (few : s.pushes < T.size)
    (some : s.freeHead.value ≠ freeListTail T) {next : Nat} :
    Aged { s.goto t (.storeActive s.freeHead) with
      freeHead := ⟨next, s.freeHead.version⟩
      free := s.free.tail } returned := by
  have version : s.freeHead.version = s.pushes := inv.version.trans (Nat.mod_eq_of_lt few)
  obtain ⟨rest, top, -⟩ := inv.linked.exists_cons some
  refine ⟨h.increasing, h.given, h.old, fun id mem mem' => ?_, fun u id hu => ?_⟩
  · exact h.free id mem (List.mem_of_mem_tail mem')
  · simp only [State.goto, Function.update_apply] at hu
    split_ifs at hu with e
    · cases hu
      refine ⟨version.le, fun id mem same => version ▸ h.free id mem ?_⟩
      rw [same, top]
      exact List.mem_cons_self
    · exact h.takes u id hu

/-- A value that is given back was returned before the deallocation. -/
theorem push (h : Aged s returned) {id : VersionedValue} :
    Aged { s.goto t .idle with
      freeHead := id
      free := id.value :: s.free
      pushes := s.pushes + 1 } returned := by
  refine ⟨h.increasing, h.given, fun id mem => (h.old id mem).trans (Nat.le_succ _),
    fun id mem _ => Nat.lt_succ_of_le (h.old id mem), fun u id hu => ?_⟩
  simp only [State.goto, Function.update_apply] at hu
  split_ifs at hu with e
  · cases hu
  · exact ⟨(h.takes u id hu).1.trans (Nat.le_succ _), (h.takes u id hu).2⟩

/-- `allocate` returns an id. -/
theorem receive (h : Aged s returned) (inv : Inv T s) {id : VersionedValue}
    (takes : (s.pc t).takes = some id) :
    Aged ((s.store id.value (activeFlag T)).receive t id) (id :: returned) := by
  obtain ⟨version, larger⟩ := h.takes t id takes
  have carries := Pc.carries_of_takes takes
  have given : id.value < s.nextValue :=
    List.mem_range.mp ((inv.owned.cover _).mpr ⟨.inTransit t, carries⟩)
  refine ⟨List.pairwise_cons.mpr ⟨fun id' mem same => larger id' mem same.symm, h.increasing⟩,
    List.forall_mem_cons.mpr ⟨given, h.given⟩, List.forall_mem_cons.mpr ⟨version, h.old⟩,
    List.forall_mem_cons.mpr ⟨fun free => absurd free (inv.not_free carries), h.free⟩,
    fun u id' hu => ?_⟩
  simp only [State.receive, State.goto, Function.update_apply] at hu
  split_ifs at hu with e
  · cases hu
  · have old := h.takes u id' hu
    refine ⟨old.1, List.forall_mem_cons.mpr ⟨fun same => ?_, old.2⟩⟩
    have carries' : (s.pc u).carries = some id.value := same ▸ Pc.carries_of_takes hu
    have one := inv.owned.unique (π := .inTransit u) (ρ := .inTransit t) carries' carries
    cases one
    exact absurd rfl e

/-- A new value has not been returned. -/
theorem fetchAdd (h : Aged s returned) (room : s.nextValue + 1 < T.size) :
    Aged { s.goto t (.ensure ⟨s.nextValue, 0⟩) with
      nextValue := (s.nextValue + 1) % T.size } returned := by
  refine ⟨h.increasing, fun id mem => ?_, h.old, h.free, fun u id hu => ?_⟩
  · simp only [Nat.mod_eq_of_lt room]
    exact (h.given id mem).trans (Nat.lt_succ_self _)
  · simp only [State.goto, Function.update_apply] at hu
    split_ifs at hu with e
    · cases hu
      exact ⟨Nat.zero_le _, fun id mem same => absurd same (h.given id mem).ne⟩
    · exact h.takes u id hu

theorem advance (h : Aged s returned) (inv : Inv T s) (few : s.pushes < T.size)
    (hs : s.advance T t = some s') : Aged s' (History.returns .step (s.pc t) ++ returned) := by
  unfold State.advance at hs
  cases hp : s.pc t with
  | idle => simp only [hp] at hs; cases hs
  | loadHead =>
    simp only [hp, Option.some.injEq] at hs
    subst hs
    exact h.frame rfl rfl rfl (List.Subset.refl _) (takes_look _)
  | loadNext head | loadTop id | storeNext id head =>
    simp only [hp, Option.some.injEq] at hs
    subst hs
    exact h.frame rfl rfl rfl (List.Subset.refl _) rfl
  | pop head next =>
    simp only [hp] at hs
    split_ifs at hs with same
    · cases hs
      subst same
      exact h.pop inv few ((inv.knows t).read _ (by rw [hp]; rfl)).1
    · cases hs
      exact h.frame rfl rfl rfl (List.Subset.refl _) (takes_look _)
  | storeActive id | ensure id =>
    simp only [hp, Option.some.injEq] at hs
    subst hs
    exact h.receive inv (by rw [hp]; rfl)
  | fetchAdd =>
    simp only [hp, Option.some.injEq] at hs
    subst hs
    have small := inv.small
    have two := T.two_lt_size
    exact h.fetchAdd (by omega)
  | push id head =>
    simp only [hp] at hs
    split_ifs at hs with same
    · cases hs
      exact h.push
    · cases hs
      exact h.frame rfl rfl rfl (List.Subset.refl _) rfl

theorem step (h : Aged s returned) (inv : Inv T s) (few : s.pushes < T.size) {m : Move}
    (hs : s.step T (t, m) = some s') : Aged s' (History.returns m (s.pc t) ++ returned) := by
  cases m with
  | step => exact h.advance inv few hs
  | allocate =>
    simp only [State.step] at hs
    split at hs
    · cases hs
      exact h.frame rfl rfl rfl (List.Subset.refl _) rfl
    · cases hs
  | deallocate id =>
    simp only [State.step] at hs
    split at hs
    · split_ifs at hs
      cases hs
      exact h.frame rfl rfl rfl (List.Subset.refl _) rfl
    · cases hs
  | weakFail =>
    simp only [State.step] at hs
    split at hs
    · cases hs
      exact h.frame rfl rfl rfl (List.Subset.refl _) (takes_look _)
    · cases hs
      exact h.frame rfl rfl rfl (List.Subset.refl _) rfl
    · cases hs

end Aged

variable [DecidableEq Tid] {blank : Nat → Nat}

/-- In every interleaving with fewer deallocations than versions, each value is returned with
larger and larger versions, and no id is returned twice. -/
theorem increasing_of_reach {s : History Tid}
    (h : (history Tid T blank).Reach (fewDeallocations T) s) :
    Increasing s.returned ∧ s.returned.Nodup := by
  have all : Aged s.state s.returned := by
    have kept : Inv T s.state ∧ Aged s.state s.returned ∧ s.state.pushes < T.size := by
      refine h.inv (P := fun s => Inv T s.state ∧ Aged s.state s.returned ∧
        s.state.pushes < T.size) ?_ ?_
      · rintro s rfl
        exact ⟨inv_unused blank, .start blank, Nat.zero_lt_of_lt T.two_lt_size⟩
      · rintro s ⟨t, m⟩ s' ⟨inv, aged, few⟩ hs ⟨small, few'⟩
        obtain ⟨state, move, rfl⟩ := Option.map_eq_some_iff.mp hs
        have side : disciplined T s.state (t, m) state := by
          refine ⟨small, ?_⟩
          split
          · exact Nat.lt_add_left _ few
          · trivial
        exact ⟨inv.step move side, aged.step inv few move, few'⟩
    exact kept.2.1
  exact ⟨all.increasing, all.increasing.nodup⟩

/-- The value 0 is returned with the versions 0 and 1. -/
theorem increasing_of_reach_raceForFree : ∃ s, (history Nat .uint16 fun _ => 0).run
      ⟨unused Nat .uint16 fun _ => 0, []⟩ raceForFree = some s ∧
    s.returned = [⟨2, 0⟩, ⟨0, 1⟩, ⟨1, 0⟩, ⟨0, 0⟩] ∧ Increasing s.returned ∧ s.returned.Nodup := by
  have along : (history Nat .uint16 fun _ => 0).Along (fewDeallocations .uint16)
      ⟨unused Nat .uint16 fun _ => 0, []⟩ raceForFree := by decide +kernel
  have seen : ((history Nat .uint16 fun _ => 0).run ⟨unused Nat .uint16 fun _ => 0, []⟩
      raceForFree).map History.returned = some [⟨2, 0⟩, ⟨0, 1⟩, ⟨1, 0⟩, ⟨0, 0⟩] := by decide +kernel
  obtain ⟨s, run, reach, seen⟩ := Machine.Reach.of_along_seen (.start rfl) along seen
  exact ⟨s, run, seen, increasing_of_reach reach⟩

end Fuxi.Base.IdAllocator
