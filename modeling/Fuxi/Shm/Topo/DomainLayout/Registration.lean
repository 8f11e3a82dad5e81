import Fuxi.Lib.Machine
import Fuxi.Shm.Topo.DomainLayout

/-!
# Runs of process registrations

`RegisterPid` gives every process of a domain an entry in the process table, and the index of
the entry is what the queues of the domain use. A pid that has an entry gets its index; a new
pid takes the next entry, but the result is 0.
-/

namespace Fuxi.Shm.Topo

open Lib

/-- The pids in the table. -/
def ShmDomainLayout.pids (l : ShmDomainLayout) : List Int :=
  (List.range l.processCnt).map fun i => (l.processState i).pid

/-- The layout, and the calls of `RegisterPid` so far with what they returned. -/
structure PidRun where
  layout : ShmDomainLayout := .initialized
  returned : List (Int × Int) := []

namespace PidRun

def next (s : PidRun) (pid : Int) : PidRun :=
  ⟨(s.layout.registerPid pid).1, (pid, (s.layout.registerPid pid).2) :: s.returned⟩

/-- Registrations one after the other. -/
def machine : Machine PidRun Int where
  start s := s = {}
  step s pid := some (s.next pid)

/-- An index that was returned leads to the pid it was returned for, and it is the index of this
pid only. -/
structure Numbers (s : PidRun) : Prop where
  entry : ∀ r ∈ s.returned, r.2 ≠ -1 →
    ∃ i < maxProcessNum, r.2 = i ∧ (s.layout.processState i).pid = r.1
  index : ∀ r ∈ s.returned, ∀ r' ∈ s.returned, r.2 ≠ -1 → r'.2 ≠ -1 →
    (r.1 = r'.1 ↔ r.2 = r'.2)

/-- The next call is refused only for a new pid when the table is full of other pids, and it
leaves the table alone then. -/
def RefusesWhenFull (s : PidRun) : Prop :=
  ∀ pid, (s.layout.registerPid pid).2 = -1 →
    s.layout.pids.length = maxProcessNum ∧ s.layout.pids.Nodup ∧ pid ∉ s.layout.pids ∧
      (s.layout.registerPid pid).1 = s.layout

/-- All calls are for the same pid. -/
def OnePid (s : PidRun) : Prop := ∀ r ∈ s.returned, ∀ r' ∈ s.returned, r.1 = r'.1

end PidRun

/-! ## The pids in the table -/

namespace ShmDomainLayout

variable {l : ShmDomainLayout} {pid : Int}

@[simp] theorem length_pids : l.pids.length = l.processCnt := by simp [pids]

theorem pids_at {i : Nat} :
    l.pids[i]? = some pid ↔ i < l.processCnt ∧ (l.processState i).pid = pid := by
  simp only [pids, List.getElem?_map, Option.map_eq_some_iff, List.getElem?_eq_some_iff,
    List.getElem_range, List.length_range]
  grind

theorem mem_pids : pid ∈ l.pids ↔ ∃ i < l.processCnt, (l.processState i).pid = pid := by
  simp [pids]

/-- The pids after an entry more. -/
theorem pids_register (p : ProcessState) :
    ({ l.setProcessState l.processCnt p with processCnt := l.processCnt + 1 } :
      ShmDomainLayout).pids = l.pids ++ [p.pid] := by
  simp only [pids, List.range_succ, List.map_append, List.map_cons, List.map_nil,
    setProcessState_same, List.append_cancel_right_eq]
  refine List.map_congr_left fun i hi => ?_
  rw [setProcessState_of_ne _ _ (List.mem_range.mp hi).ne]

/-- What `RegisterPid` does to the pids. -/
theorem registerPid_pids (l : ShmDomainLayout) (pid : Int) :
    (∃ i : Nat, l.pids[i]? = some pid ∧ l.registerPid pid = (l, (i : Int))) ∨
    pid ∉ l.pids ∧
      (maxProcessNum ≤ l.pids.length ∧ l.registerPid pid = (l, -1) ∨
        l.pids.length < maxProcessNum ∧ (l.registerPid pid).2 = 0 ∧
          (l.registerPid pid).1.pids = l.pids ++ [pid]) := by
  obtain ⟨i, hi, at_, eq⟩ | ⟨new, rest⟩ := l.registerPid_cases pid
  · exact Or.inl ⟨i, pids_at.mpr ⟨hi, at_⟩, eq⟩
  · refine Or.inr ⟨fun mem => ?_, ?_⟩
    · obtain ⟨i, hi, at_⟩ := mem_pids.mp mem
      exact new i hi at_
    · rw [length_pids]
      obtain ⟨full, eq⟩ | ⟨room, eq⟩ := rest
      · exact Or.inl ⟨full, eq⟩
      · refine Or.inr ⟨room, by rw [eq], ?_⟩
        rw [eq]
        exact pids_register _

end ShmDomainLayout

/-! ## Runs -/

namespace PidRun

variable {s : PidRun}

/-- The table holds different pids, and the first pid has been given the index 0. Unless all
calls were for it, another pid was given the index 0 as well. -/
structure Inv (s : PidRun) : Prop where
  nodup : s.layout.pids.Nodup
  fits : s.layout.pids.length ≤ maxProcessNum
  first : s.layout.pids = [] ∧ s.returned = [] ∨
    ∃ pid rest, s.layout.pids = pid :: rest ∧ (pid, 0) ∈ s.returned ∧
      (rest = [] ∧ (∀ r ∈ s.returned, r = (pid, 0)) ∨ ∃ r ∈ s.returned, r.1 ≠ pid ∧ r.2 = 0)

theorem inv_start : ({} : PidRun).Inv :=
  ⟨List.nodup_nil, Nat.zero_le _, Or.inl ⟨rfl, rfl⟩⟩

theorem Inv.next (h : s.Inv) (pid : Int) : (s.next pid).Inv := by
  obtain ⟨i, at_, eq⟩ | ⟨new, ⟨full, eq⟩ | ⟨room, zero, grown⟩⟩ := s.layout.registerPid_pids pid
  · -- the pid has an entry; in a table of one pid this is the first one
    simp only [PidRun.next, eq]
    refine ⟨h.nodup, h.fits, Or.inr ?_⟩
    obtain ⟨empty, -⟩ | ⟨p, rest, pids, told, same | ⟨r, hr, other⟩⟩ := h.first
    · simp [empty] at at_
    · obtain ⟨rfl, all⟩ := same
      have only : i = 0 ∧ p = pid := by
        rw [pids] at at_
        cases i <;> simp_all
      obtain ⟨rfl, rfl⟩ := only
      refine ⟨p, [], pids, List.mem_cons_self, Or.inl ⟨rfl, fun r hr => ?_⟩⟩
      obtain rfl | old := List.mem_cons.mp hr
      · rfl
      · exact all r old
    · exact ⟨p, rest, pids, List.mem_cons_of_mem _ told,
        Or.inr ⟨r, List.mem_cons_of_mem _ hr, other⟩⟩
  · simp only [PidRun.next, eq]
    refine ⟨h.nodup, h.fits, Or.inr ?_⟩
    obtain ⟨empty, -⟩ | ⟨p, rest, pids, told, ⟨rfl, -⟩ | ⟨r, hr, other⟩⟩ := h.first
    · simp [empty, maxProcessNum] at full
    · simp [pids, maxProcessNum] at full
    · exact ⟨p, rest, pids, List.mem_cons_of_mem _ told,
        Or.inr ⟨r, List.mem_cons_of_mem _ hr, other⟩⟩
  · -- a new pid is told the index 0, whichever entry it has got
    simp only [PidRun.next, zero]
    refine ⟨?_, ?_, Or.inr ?_⟩
    · rw [grown]
      exact List.nodup_append.mpr ⟨h.nodup, List.nodup_singleton pid, by grind⟩
    · rw [grown, List.length_append, List.length_singleton]
      exact room
    · rw [grown]
      obtain ⟨empty, none⟩ | ⟨p, rest, pids, told, -⟩ := h.first
      · exact ⟨pid, [], by simp [empty], List.mem_cons_self, Or.inl ⟨rfl, by simp [none]⟩⟩
      · refine ⟨p, rest ++ [pid], by simp [pids], List.mem_cons_of_mem _ told,
          Or.inr ⟨_, List.mem_cons_self, ?_, rfl⟩⟩
        rintro rfl
        exact new (by simp [pids])

theorem inv_of_reach (h : machine.Reach Machine.free s) : s.Inv := by
  refine h.inv (P := Inv) ?_ fun s pid t inv move _ => ?_
  · rintro s rfl
    exact inv_start
  · cases move
    exact inv.next pid

theorem Inv.refusesWhenFull (h : s.Inv) : s.RefusesWhenFull := by
  intro pid refused
  obtain ⟨i, -, eq⟩ | ⟨new, ⟨full, eq⟩ | ⟨-, zero, -⟩⟩ := s.layout.registerPid_pids pid
  · rw [eq] at refused
    simp only at refused
    omega
  · exact ⟨Nat.le_antisymm h.fits full, h.nodup, new, by rw [eq]⟩
  · rw [zero] at refused
    cases refused

theorem Inv.numbers_iff (h : s.Inv) : s.Numbers ↔ s.OnePid := by
  obtain ⟨-, none⟩ | ⟨p, rest, pids, told, ⟨rfl, all⟩ | ⟨r, hr, ne, zero⟩⟩ := h.first
  · exact ⟨fun _ => by simp [OnePid, none], fun _ => ⟨by simp [none], by simp [none]⟩⟩
  · have first := ShmDomainLayout.pids_at.mp (show s.layout.pids[0]? = some p by simp [pids])
    refine ⟨fun _ r hr r' hr' => by rw [all r hr, all r' hr'],
      fun _ => ⟨fun r hr _ => ⟨0, by decide, ?_⟩, fun r hr r' hr' _ _ => ?_⟩⟩
    · rw [all r hr]
      exact ⟨rfl, first.2⟩
    · simp [all r hr, all r' hr']
  · constructor
    · intro numbers
      obtain ⟨i, -, index, holds⟩ := numbers.entry r hr (by omega)
      have first := ShmDomainLayout.pids_at.mp (show s.layout.pids[0]? = some p by simp [pids])
      have : i = 0 := by omega
      subst this
      exact (ne (holds.symm.trans first.2)).elim
    · exact fun one => (ne (one r hr _ told)).elim

/-- In every run of registrations a call is refused only when the table is full, and the indices
number the pids exactly if all calls are for one pid. -/
theorem numbers_iff_of_reach (h : machine.Reach Machine.free s) :
    s.RefusesWhenFull ∧ (s.Numbers ↔ s.OnePid) :=
  ⟨(inv_of_reach h).refusesWhenFull, (inv_of_reach h).numbers_iff⟩

/-- A process that registers twice. -/
theorem numbers_iff_of_reach_twice :
    ∃ s, machine.run {} [7, 7] = some s ∧ s.returned = [(7, 0), (7, 0)] ∧ s.RefusesWhenFull ∧
      (s.Numbers ↔ s.OnePid) := by
  have seen : (machine.run {} [7, 7]).map (fun s => s.returned) = some [(7, 0), (7, 0)] := by
    decide +kernel
  obtain ⟨s, run, seen⟩ := Option.map_eq_some_iff.mp seen
  exact ⟨s, run, seen, numbers_iff_of_reach (Machine.Reach.of_run (.start rfl) run)⟩

/-- Two processes are told the same index, and the second one another one when it asks again. -/
theorem registerPid_shares_index :
    ∃ s, machine.run {} [7, 9, 9] = some s ∧ s.returned = [(9, 1), (9, 0), (7, 0)] ∧
      ¬s.Numbers := by
  have seen : (machine.run {} [7, 9, 9]).map (fun s => s.returned) =
      some [(9, 1), (9, 0), (7, 0)] := by decide +kernel
  obtain ⟨s, run, seen⟩ := Option.map_eq_some_iff.mp seen
  refine ⟨s, run, seen, fun numbers => ?_⟩
  have := (numbers.index (9, 1) (by simp [seen]) (9, 0) (by simp [seen]) (by decide)
    (by decide)).mp rfl
  cases this

end PidRun

end Fuxi.Shm.Topo
