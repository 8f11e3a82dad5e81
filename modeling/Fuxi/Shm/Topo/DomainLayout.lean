import Fuxi.Shm.Topo.ProcessState

/-!
# `ShmDomainLayout`

What all processes of a domain share: the table of writers and readers and the table of
processes with their event queues.
-/

namespace Fuxi.Shm.Topo

open Lib Base

/-- `ShmDomainLayout`. -/
structure ShmDomainLayout where
  topoState : TopoData := {}
  processCnt : Nat := 0
  processState : Nat → ProcessState

namespace ShmDomainLayout

/-- `Init` on a new layout. -/
def initialized : ShmDomainLayout where
  processState := fun _ => ProcessState.initialized 0 maxReaderEventSize

def setProcessState (l : ShmDomainLayout) (i : Nat) (p : ProcessState) : ShmDomainLayout :=
  { l with processState := Function.update l.processState i p }

/-- `RegisterPid`. A pid that is new gets the next entry, but the result is 0. -/
def registerPid (l : ShmDomainLayout) (pid : Int) : ShmDomainLayout × Int :=
  match scan (fun i => decide (pid = (l.processState i).pid)) l.processCnt with
  | some i => (l, i)
  | none =>
    if maxProcessNum ≤ l.processCnt then (l, -1)
    else
      let idx := l.processCnt
      ({ l.setProcessState idx { l.processState idx with pid := pid, isOnline := true } with
          processCnt := idx + 1 }, 0)

/-- `GetProcessState`, for indices in the table. -/
def getProcessState (l : ShmDomainLayout) (i : Int) : Option ProcessState :=
  if 0 ≤ i ∧ i < maxProcessNum then some (l.processState i.toNat) else none

/-- `ProcessState::Push` on an entry of the table. -/
def pushTo (l : ShmDomainLayout) (c : RefCounts) (i : Int) (object fuel : Nat) :
    Option (ShmDomainLayout × RefCounts) := do
  let p ← l.getProcessState i
  let r ← p.push c object fuel
  return (l.setProcessState i.toNat r.1, r.2)

/-! ## Entries of the process table -/

section SetProcessState

variable (l : ShmDomainLayout) {i j : Nat} (p : ProcessState)

@[simp] theorem setProcessState_topoState : (l.setProcessState i p).topoState = l.topoState := rfl

@[simp] theorem setProcessState_processCnt : (l.setProcessState i p).processCnt = l.processCnt := rfl

@[simp] theorem setProcessState_same : (l.setProcessState i p).processState i = p :=
  Function.update_self ..

theorem setProcessState_of_ne (h : j ≠ i) :
    (l.setProcessState i p).processState j = l.processState j :=
  Function.update_of_ne h ..

end SetProcessState

theorem getProcessState_eq (l : ShmDomainLayout) {i : Nat} (h : i < maxProcessNum) :
    l.getProcessState i = some (l.processState i) := by
  rw [getProcessState, if_pos ⟨Int.natCast_nonneg i, by exact_mod_cast h⟩, Int.toNat_natCast]

/-- The entries in use have different pids. -/
structure Numbered (l : ShmDomainLayout) : Prop where
  fits : l.processCnt ≤ maxProcessNum
  pids : ∀ i < l.processCnt, ∀ j < l.processCnt,
    (l.processState i).pid = (l.processState j).pid → i = j

/-- What `RegisterPid` does: the pid has an entry, there is no room for it, or it gets the
next entry. -/
theorem registerPid_cases (l : ShmDomainLayout) (pid : Int) :
    (∃ i < l.processCnt, (l.processState i).pid = pid ∧ l.registerPid pid = (l, (i : Int))) ∨
    (∀ i < l.processCnt, (l.processState i).pid ≠ pid) ∧
      (maxProcessNum ≤ l.processCnt ∧ l.registerPid pid = (l, -1) ∨
        l.processCnt < maxProcessNum ∧ l.registerPid pid =
          ({ l.setProcessState l.processCnt
              { l.processState l.processCnt with pid := pid, isOnline := true } with
            processCnt := l.processCnt + 1 }, 0)) := by
  unfold registerPid
  split
  case h_1 i found =>
    obtain ⟨hi, eq⟩ := scan_some found
    exact Or.inl ⟨i, hi, (of_decide_eq_true eq).symm, rfl⟩
  case h_2 none =>
    refine Or.inr ⟨fun i hi eq => ?_, ?_⟩
    · have := scan_none.mp none i hi
      simp [eq] at this
    · split_ifs with full
      · exact Or.inl ⟨full, rfl⟩
      · exact Or.inr ⟨not_le.mp full, rfl⟩

/-! ## Pushing to several processes -/

/-- The targets are different entries of the table, and each of them can take an event. -/
structure Targets (l : ShmDomainLayout) (targets : List Int) : Prop where
  nodup : targets.Nodup
  entry : ∀ t ∈ targets, ∃ i : Nat, t = i ∧ i < maxProcessNum ∧
    (l.processState i).Ok maxReaderEventSize ∧ (l.processState i).readerEventQueue.roomSeen ∧
      (l.processState i).events.length < maxReaderEventSize

/-- An event is pushed to each target once, and nothing else changes. -/
structure Pushed (l l' : ShmDomainLayout) (targets : List Int) (object : Nat) : Prop where
  topoState : l'.topoState = l.topoState
  processCnt : l'.processCnt = l.processCnt
  pid : ∀ i, (l'.processState i).pid = (l.processState i).pid
  others : ∀ i : Nat, (i : Int) ∉ targets → l'.processState i = l.processState i
  ok : ∀ i : Nat, (i : Int) ∈ targets → (l'.processState i).Ok maxReaderEventSize
  events : ∀ i : Nat, (i : Int) ∈ targets →
    (l'.processState i).events = (l.processState i).events ++ [object]

/-- The loop over the targets returns, whatever the fuel of a push that is not 0. -/
theorem Targets.push {targets : List Int} {l : ShmDomainLayout} (h : l.Targets targets)
    (c : RefCounts) (object : Nat) : ∃ l' c', l.Pushed l' targets object ∧
      (∀ fuel, targets.foldlM (fun s t => s.1.pushTo s.2 t object (fuel + 1)) (l, c) =
        some (l', c')) ∧
      (targets ≠ [] → targets.foldlM (fun s t => s.1.pushTo s.2 t object 0) (l, c) = none) := by
  induction targets generalizing l c with
  | nil =>
    refine ⟨l, c, ⟨rfl, rfl, fun _ => rfl, fun _ _ => rfl, ?_, ?_⟩, fun _ => rfl, fun h => ?_⟩
    · exact fun i hi => absurd hi List.not_mem_nil
    · exact fun i hi => absurd hi List.not_mem_nil
    · exact absurd rfl h
  | cons t targets ih =>
    obtain ⟨new, nodup⟩ := List.nodup_cons.mp h.nodup
    obtain ⟨i, rfl, lt, ok, seen, room⟩ := h.entry t (by simp)
    obtain ⟨stuck, p', ret, ok', pid', events'⟩ := ok.push c object seen (room.trans_le ok.room)
    have here := l.getProcessState_eq lt
    have one : ∀ fuel, l.pushTo c i object (fuel + 1) =
        some (l.setProcessState i p', c.add object) := by
      intro fuel
      simp [pushTo, here, ret]
    have keep : ∀ j : Nat, (j : Int) ∈ targets →
        (l.setProcessState i p').processState j = l.processState j := by
      intro j hj
      refine setProcessState_of_ne _ _ fun e => new (e ▸ hj)
    obtain ⟨l', c', pushed, run, -⟩ := ih (l := l.setProcessState i p') (c := c.add object)
      ⟨nodup, fun t ht => by
        obtain ⟨j, rfl, lt, rest⟩ := h.entry t (List.mem_cons_of_mem _ ht)
        exact ⟨j, rfl, lt, by rw [keep j ht]; exact rest⟩⟩
    refine ⟨l', c', ⟨pushed.topoState, pushed.processCnt, fun j => ?_, fun j hj => ?_, fun j hj => ?_,
      fun j hj => ?_⟩, fun fuel => ?_, fun _ => ?_⟩
    · rw [pushed.pid]
      by_cases e : j = i
      · subst e; rw [setProcessState_same, pid']
      · rw [setProcessState_of_ne _ _ e]
    · rw [List.mem_cons, not_or] at hj
      rw [pushed.others j hj.2, setProcessState_of_ne _ _ fun e => hj.1 (by rw [e])]
    · by_cases e : j = i
      · subst e; rw [pushed.others j new, setProcessState_same]; exact ok'
      · exact pushed.ok j (by simpa [e] using hj)
    · by_cases e : j = i
      · subst e; rw [pushed.others j new, setProcessState_same, events']
      · have hj' : (j : Int) ∈ targets := by simpa [e] using hj
        rw [pushed.events j hj', keep j hj']
    · rw [List.foldlM_cons, one]
      exact run fuel
    · rw [List.foldlM_cons]
      simp [pushTo, here, stuck]

end ShmDomainLayout

end Fuxi.Shm.Topo
