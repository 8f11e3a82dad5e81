import Mathlib.Data.Fintype.Basic
import Mathlib.Data.List.Nodup
import Fuxi.Lib.Machine
import Fuxi.Lib.SharedMemory
import Fuxi.Lib.Word

/-!
# `XsiSegment`

The processes that use a data segment count themselves in the segment. The first one
creates it, the others attach and wait until it is laid out, and the one that brings the
count back to 0 removes it.
-/

namespace Fuxi.Shm.Port

open Lib

variable {Tid : Type*}

namespace XsiSegment

/-- What a process does next in `Initialize(true)` and in `Destroy`. `tries` counts the
rounds of the loop of `OpenOrCreate` that are left, and `id` is the segment. -/
inductive Pc
  | idle
  | create (tries : Nat)
  | openOnly (tries : Nat)
  | attachOpen (tries id : Nat)
  | attachNew (id : Nat)
  | layoutInit (id : Nat)
  | increase (id : Nat) (created : Bool)
  | setInit (id : Nat)
  | waitInit (id : Nat)
  | opened (id : Nat)
  | failed (id : Option Nat)
  | decrease (id : Nat)
  | lookupRemove (id : Nat)
  | remove (id shmid : Nat)
  | destroyed (id : Nat)
  deriving DecidableEq

/-- The kernel, `reference_count_` and `inited_` of the segments, and the processes;
`holders` lists who has incremented the count of a segment and not decremented it yet. -/
structure State (Tid : Type*) where
  shm : SharedMemory Unit := {}
  refCnt : Nat → Int := fun _ => 0
  isInit : Nat → Bool := fun _ => false
  pc : Tid → Pc := fun _ => .idle
  holders : Nat → List Tid := fun _ => []

/-- A process starts `Initialize(true)` with a new object, goes on, gives up waiting, starts
`Destroy`, or drops the object. -/
inductive Move
  | init
  | step
  | timeout
  | destroy
  | exit

namespace State

variable [DecidableEq Tid]

def goto (s : State Tid) (t : Tid) (p : Pc) : State Tid :=
  { s with pc := Function.update s.pc t p }

/-- The loop of `OpenOrCreate` goes on when the segment could not be opened. -/
def again : Nat → Pc
  | 0 => .failed none
  | tries + 1 => .create (tries + 1)

/-- The next step of a process. -/
def advance (s : State Tid) (t : Tid) : Option (State Tid) :=
  match s.pc t with
  | .idle | .opened _ | .failed _ | .destroyed _ => none
  | .create tries =>
    match s.shm.create () with
    | some (m, id) => some { s.goto t (.attachNew id) with shm := m }
    | none => some (s.goto t (.openOnly (tries - 1)))
  | .openOnly tries =>
    match s.shm.lookup () with
    | some id => some (s.goto t (.attachOpen tries id))
    | none => some (s.goto t (again tries))
  | .attachOpen tries id =>
    match s.shm.attach id with
    | some m => some { s.goto t (.waitInit id) with shm := m }
    | none => some (s.goto t (again tries))
  | .attachNew id =>
    match s.shm.attach id with
    | some m => some { s.goto t (.layoutInit id) with shm := m }
    | none => some { s.goto t (.failed none) with shm := s.shm.remove id }
  | .layoutInit id =>
    some
      { s.goto t (.increase id true) with
        refCnt := Function.update s.refCnt id 0
        isInit := Function.update s.isInit id false }
  | .increase id created =>
    some
      { s.goto t (if created then .setInit id else .opened id) with
        refCnt := Function.update s.refCnt id (i32 (s.refCnt id + 1))
        holders := Function.update s.holders id (t :: s.holders id) }
  | .setInit id =>
    some { s.goto t (.opened id) with isInit := Function.update s.isInit id true }
  | .waitInit id => some (if s.isInit id then s.goto t (.increase id false) else s)
  | .decrease id =>
    let count := i32 (s.refCnt id - 1)
    some
      { s.goto t (if count = 0 then .lookupRemove id else .destroyed id) with
        refCnt := Function.update s.refCnt id count
        holders := Function.update s.holders id ((s.holders id).erase t) }
  | .lookupRemove id =>
    match s.shm.lookup () with
    | some shmid => some (s.goto t (.remove id shmid))
    | none => some (s.goto t (.destroyed id))
  | .remove id shmid => some { s.goto t (.destroyed id) with shm := s.shm.remove shmid }

def step (s : State Tid) : Tid × Move → Option (State Tid)
  | (t, .init) =>
    match s.pc t with
    | .idle => some (s.goto t (.create 2))
    | _ => none
  | (t, .step) => s.advance t
  | (t, .timeout) =>
    match s.pc t with
    | .waitInit id => some (s.goto t (.failed (some id)))
    | _ => none
  | (t, .destroy) =>
    match s.pc t with
    | .opened id => some (s.goto t (.decrease id))
    | _ => none
  | (t, .exit) =>
    match s.pc t with
    | .failed none => some (s.goto t .idle)
    | .failed (some id) | .destroyed id => some { s.goto t .idle with shm := s.shm.detach id }
    | _ => none

end State

/-- Any number of processes use one option. -/
def machine (Tid : Type*) [DecidableEq Tid] : Machine (State Tid) (Tid × Move) where
  start s := s = {}
  step := State.step

/-! ## The condition -/

/-- What a process has to do with a segment: it has found the segment and not counted
itself yet, it has created the segment and not counted itself yet, it is counted, or it has
brought the count to 0 and removes the segment. -/
inductive Role
  | entering
  | creating
  | holding
  | removing
  deriving DecidableEq

def Pc.role : Pc → Option (Role × Nat)
  | .attachOpen _ id | .waitInit id | .increase id false => some (.entering, id)
  | .attachNew id | .layoutInit id | .increase id true => some (.creating, id)
  | .setInit id | .opened id | .decrease id => some (.holding, id)
  | .lookupRemove id | .remove id _ => some (.removing, id)
  | .idle | .create _ | .openOnly _ | .failed _ | .destroyed _ => none

/-- All processes whose `Initialize` has returned true, and that have not begun `Destroy`,
are attached to one segment. -/
def SameSegment (s : State Tid) : Prop :=
  ∀ t u i j, s.pc t = .opened i → s.pc u = .opened j → i = j

/-- The condition on a step of a process: when it brings the count to 0, nobody has found
the segment without being counted yet (and the count has not wrapped); and when it finds
the segment, nobody is about to remove it. -/
structure Proper (s : State Tid) (t : Tid) : Prop where
  decrease : ∀ id, s.pc t = .decrease id → i32 (s.refCnt id - 1) = 0 →
    (∀ u, (s.pc u).role ≠ some (.entering, id)) ∧ (s.holders id).length < 4294967296
  openOnly : ∀ tries, s.pc t = .openOnly tries → ∀ id, s.shm.lookup () = some id →
    ∀ u, (s.pc u).role ≠ some (.removing, id)

/-- A process knows that the layout is ready. -/
def Pc.started : Pc → Option Nat
  | .increase id false | .opened id | .decrease id => some id
  | .idle | .create _ | .openOnly _ | .attachOpen _ _ | .attachNew _ | .layoutInit _
  | .increase _ true | .setInit _ | .waitInit _ | .failed _ | .lookupRemove _ | .remove _ _
  | .destroyed _ => none

/-- The uses of a state. -/
def uses (s : State Tid) (t : Tid) (_ : Unit) (id : Nat) : Prop :=
  ∃ r, (s.pc t).role = some (r, id)

/-- The invariant: whoever has to do with a segment has to do with the one that the key
names, the count is the number of the counted processes, and a segment that is about to be
removed concerns nobody else. -/
structure Inv (s : State Tid) : Prop where
  wf : s.shm.Wf
  current : s.shm.Current (uses s)
  own : ∀ t id shmid, s.pc t = .remove id shmid → shmid = id
  creator : ∀ t id, (s.pc t).role = some (.creating, id) → s.isInit id = false ∧
    s.holders id = [] ∧ ∀ u, (s.pc u).role = some (.creating, id) → u = t
  started : ∀ t id, (s.pc t).started = some id → s.isInit id = true
  count : ∀ id, s.refCnt id = i32 (s.holders id).length
  nodup : ∀ id, (s.holders id).Nodup
  hold : ∀ t id, t ∈ s.holders id ↔ (s.pc t).role = some (.holding, id)
  fresh : ∀ id, s.shm.next ≤ id → s.isInit id = false ∧ s.holders id = []
  removing : ∀ t id, (s.pc t).role = some (.removing, id) →
    ∀ u r, (s.pc u).role = some (r, id) → u = t

namespace Inv

variable {s : State Tid}

theorem start : Inv ({} : State Tid) where
  wf := SharedMemory.Wf.start
  current := fun _ _ _ ⟨_, h⟩ => by simp [Pc.role] at h
  own := fun _ _ _ h => by simp at h
  creator := fun _ _ h => by simp [Pc.role] at h
  started := fun _ _ h => by simp [Pc.started] at h
  count := fun _ => by simp [i32]
  nodup := fun _ => List.nodup_nil
  hold := fun _ _ => by simp [Pc.role]
  fresh := fun _ _ => ⟨rfl, rfl⟩
  removing := fun _ _ h => by simp [Pc.role] at h

theorem named (h : Inv s) {t : Tid} {r : Role} {id : Nat} (role : (s.pc t).role = some (r, id)) :
    s.shm.named () = some id :=
  h.current t () id ⟨r, role⟩

theorem sameSegment (h : Inv s) : SameSegment s := fun _ _ _ _ ht hu =>
  h.current.agree (k := ()) ⟨.holding, by rw [ht]; rfl⟩ ⟨.holding, by rw [hu]; rfl⟩

variable [DecidableEq Tid]

/-! ## One process moves on -/

section Moved

variable {t u : Tid} {p : Pc} {id : Nat}

theorem role_update {pc : Tid → Pc} {r : Role}
    (hu : (Function.update pc t p u).role = some (r, id)) :
    u = t ∧ p.role = some (r, id) ∨ u ≠ t ∧ (pc u).role = some (r, id) := by
  by_cases e : u = t
  · subst e
    rw [Function.update_self] at hu
    exact Or.inl ⟨rfl, hu⟩
  · rw [Function.update_of_ne e] at hu
    exact Or.inr ⟨e, hu⟩

theorem own_update (h : Inv s) (own : ∀ id shmid, p = .remove id shmid → shmid = id) :
    ∀ u id shmid, Function.update s.pc t p u = .remove id shmid → shmid = id :=
  (Function.forall_update_iff s.pc fun _ q => ∀ id shmid, q = .remove id shmid → shmid = id).mpr
    ⟨own, fun u _ => h.own u⟩

theorem started_update (h : Inv s) (started : ∀ id, p.started = some id → s.isInit id = true) :
    ∀ u id, (Function.update s.pc t p u).started = some id → s.isInit id = true :=
  (Function.forall_update_iff s.pc fun _ q => ∀ id, q.started = some id → s.isInit id = true).mpr
    ⟨started, fun u _ => h.started u⟩

/-- The process has to do with the segment that the key names. -/
theorem current_update (h : Inv s) {s' : State Tid} (pc : s'.pc = Function.update s.pc t p)
    (same : s'.shm.named = s.shm.named)
    (named : ∀ r id, p.role = some (r, id) → s.shm.named () = some id) :
    s'.shm.Current (uses s') := by
  refine h.current.mono same fun u k id ⟨r, hu⟩ => ?_
  rw [pc] at hu
  obtain ⟨-, hp⟩ | ⟨-, old⟩ := role_update hu
  · exact Or.inr (named r id hp)
  · exact Or.inl ⟨r, old⟩

/-- The process is no creator. -/
theorem creator_update (h : Inv s) (no : ∀ id, p.role ≠ some (.creating, id))
    (hu : (Function.update s.pc t p u).role = some (.creating, id)) :
    u ≠ t ∧ (s.pc u).role = some (.creating, id) ∧ s.isInit id = false ∧ s.holders id = [] ∧
      ∀ v, (Function.update s.pc t p v).role = some (.creating, id) → v = u := by
  obtain ⟨-, hp⟩ | ⟨ne, old⟩ := role_update hu
  · exact absurd hp (no id)
  · obtain ⟨notInit, none, only⟩ := h.creator u id old
    refine ⟨ne, old, notInit, none, fun v hv => ?_⟩
    obtain ⟨-, hp⟩ | ⟨-, old'⟩ := role_update hv
    · exact absurd hp (no id)
    · exact only v old'

/-- The process removes nothing, and has to do with nothing that another one removes. -/
theorem removing_update (h : Inv s) (no : ∀ id, p.role ≠ some (.removing, id))
    (free : ∀ r id, p.role = some (r, id) → ∀ u, u ≠ t → (s.pc u).role ≠ some (.removing, id))
    (hu : (Function.update s.pc t p u).role = some (.removing, id)) (v : Tid) (r : Role)
    (hv : (Function.update s.pc t p v).role = some (r, id)) : v = u := by
  obtain ⟨-, hp⟩ | ⟨ne, old⟩ := role_update hu
  · exact absurd hp (no id)
  · obtain ⟨-, hp⟩ | ⟨-, old'⟩ := role_update hv
    · exact absurd old (free r id hp u ne)
    · exact h.removing u id old v r old'

omit [DecidableEq Tid] in
/-- The count of one segment changes with the list of those who are counted. -/
theorem count_update (h : Inv s) {n : Int} {l : List Tid} (eq : n = i32 l.length) (id' : Nat) :
    Function.update s.refCnt id n id' = i32 (Function.update s.holders id l id').length := by
  by_cases e : id' = id
  · subst e; rw [Function.update_self, Function.update_self, eq]
  · rw [Function.update_of_ne e, Function.update_of_ne e]; exact h.count id'

omit [DecidableEq Tid] in
theorem nodup_update (h : Inv s) {l : List Tid} (nodup : l.Nodup) :
    ∀ id', (Function.update s.holders id l id').Nodup :=
  (Function.forall_update_iff s.holders fun _ l => l.Nodup).mpr ⟨nodup, fun id' _ => h.nodup id'⟩

omit [DecidableEq Tid] in
theorem fresh_update (h : Inv s) {l : List Tid} (lt : id < s.shm.next) (id' : Nat)
    (hid : s.shm.next ≤ id') : s.isInit id' = false ∧ Function.update s.holders id l id' = [] := by
  rw [Function.update_of_ne (Nat.ne_of_gt (lt.trans_le hid))]
  exact h.fresh id' hid

end Moved

/-- A process keeps its role, or gives it up if it is not counted. -/
theorem keep (h : Inv s) {s' : State Tid} {t : Tid} {p : Pc} (wf : s'.shm.Wf)
    (current : s'.shm.Current (uses s')) (next : s'.shm.next = s.shm.next)
    (refCnt : s'.refCnt = s.refCnt) (isInit : s'.isInit = s.isInit)
    (holders : s'.holders = s.holders) (pc : s'.pc = Function.update s.pc t p)
    (role : p.role = (s.pc t).role ∨ p.role = none ∧ ∀ id, (s.pc t).role ≠ some (.holding, id))
    (started : ∀ id, p.started = some id → s.isInit id = true)
    (own : ∀ id shmid, p = .remove id shmid → shmid = id) : Inv s' := by
  have roles : ∀ u r id, (s'.pc u).role = some (r, id) → (s.pc u).role = some (r, id) := by
    intro u r id hu
    rw [pc] at hu
    obtain ⟨rfl, hp⟩ | ⟨-, old⟩ := role_update hu
    · obtain same | ⟨none, -⟩ := role
      · rw [← same]; exact hp
      · rw [none] at hp; cases hp
    · exact old
  have holding : ∀ u id, (s.pc u).role = some (.holding, id) →
      (s'.pc u).role = some (.holding, id) := by
    rw [pc]
    refine (Function.forall_update_iff s.pc fun u q => ∀ id, (s.pc u).role = some (.holding, id) →
      q.role = some (.holding, id)).mpr ⟨fun id ht => ?_, fun u _ id hu => hu⟩
    obtain same | ⟨-, notHolding⟩ := role
    · rw [same]; exact ht
    · exact absurd ht (notHolding id)
  refine ⟨wf, current, ?_, fun u id hu => ?_, ?_, ?_, ?_, fun u id => ?_, ?_,
    fun u id hu v r hv => h.removing u id (roles u _ id hu) v r (roles v r id hv)⟩
  · rw [pc]; exact h.own_update own
  · rw [isInit, holders]
    obtain ⟨h1, h2, h3⟩ := h.creator u id (roles u _ id hu)
    exact ⟨h1, h2, fun v hv => h3 v (roles v _ id hv)⟩
  · rw [pc, isInit]; exact h.started_update started
  · rw [refCnt, holders]; exact h.count
  · rw [holders]; exact h.nodup
  · rw [holders, h.hold]; exact ⟨holding u id, roles u _ id⟩
  · rw [next, isInit, holders]; exact h.fresh

/-- The same when the keys stay as they are. -/
theorem goto (h : Inv s) {s' : State Tid} {t : Tid} {p : Pc} (wf : s'.shm.Wf)
    (named : s'.shm.named = s.shm.named) (next : s'.shm.next = s.shm.next)
    (refCnt : s'.refCnt = s.refCnt) (isInit : s'.isInit = s.isInit)
    (holders : s'.holders = s.holders) (pc : s'.pc = Function.update s.pc t p)
    (role : p.role = (s.pc t).role ∨ p.role = none ∧ ∀ id, (s.pc t).role ≠ some (.holding, id))
    (started : ∀ id, p.started = some id → s.isInit id = true)
    (own : ∀ id shmid, p = .remove id shmid → shmid = id) : Inv s' := by
  refine h.keep wf (h.current_update pc named fun r id hp => ?_) next refCnt isInit holders pc role
    started own
  obtain same | ⟨none, -⟩ := role
  · exact h.named (same ▸ hp)
  · rw [none] at hp; cases hp

/-- A new segment has one process, its creator. -/
theorem create (h : Inv s) {t : Tid} {m : SharedMemory Unit} {id : Nat}
    (made : s.shm.create () = some (m, id)) :
    Inv { s.goto t (.attachNew id) with shm := m } := by
  have wf := h.wf.create made
  obtain ⟨free, eq, rfl⟩ := SharedMemory.create_eq made
  have none : ∀ u r id', (s.pc u).role ≠ some (r, id') := by
    intro u r id' hu
    rw [h.named hu] at free
    cases free
  have empty : ∀ id', s.holders id' = [] := fun id' =>
    List.eq_nil_iff_forall_not_mem.mpr fun u hu => none u _ id' ((h.hold u id').mp hu)
  have roles : ∀ u r id', (Function.update s.pc t (.attachNew id) u).role = some (r, id') →
      u = t ∧ r = .creating ∧ id' = id := by
    intro u r id' hu
    obtain ⟨rfl, hp⟩ | ⟨-, old⟩ := role_update hu
    · cases hp
      exact ⟨rfl, rfl, rfl⟩
    · exact absurd old (none u r id')
  refine ⟨wf, h.current.create made fun u _ id' ⟨r, hu⟩ => Or.inr ⟨rfl, (roles u r id' hu).2.2⟩,
    h.own_update fun _ _ => nofun, fun u id' hu => ?_, h.started_update fun _ => nofun, h.count,
    h.nodup, fun u id' => ?_, fun id' hid => h.fresh id' ?_, fun u id' hu => ?_⟩
  · obtain ⟨rfl, -, rfl⟩ := roles u _ id' hu
    exact ⟨(h.fresh id' eq.ge).1, empty id', fun v hv => (roles v _ id' hv).1⟩
  · simp only [State.goto, empty, List.not_mem_nil, false_iff]
    intro hu
    cases (roles u _ id' hu).2.1
  · simp only at hid; omega
  · cases (roles u _ id' hu).2.1

/-- A process finds a segment that nobody is about to remove. -/
theorem enter (h : Inv s) {t : Tid} {tries id : Nat} (hp : s.pc t = .openOnly tries)
    (named : s.shm.named () = some id) (free : ∀ u, (s.pc u).role ≠ some (.removing, id)) :
    Inv (s.goto t (.attachOpen tries id)) := by
  refine ⟨h.wf, h.current_update rfl rfl fun _ _ e => ?_, h.own_update fun _ _ => nofun,
    fun u id' hu => ?_, h.started_update fun _ => nofun, h.count, h.nodup, fun u id' => ?_, h.fresh,
    fun u id' => h.removing_update (fun _ e => ?_) fun _ _ e u _ => ?_⟩
  · cases e; exact named
  · obtain ⟨-, -, notInit, none, only⟩ := h.creator_update (fun _ e => by cases e) hu
    exact ⟨notInit, none, only⟩
  · rw [show (s.goto t (.attachOpen tries id)).holders = s.holders from rfl, h.hold]
    by_cases e : u = t
    · subst e; simp [State.goto, hp, Pc.role]
    · simp [State.goto, e]
  · cases e
  · cases e; exact free u

/-- A process counts itself in the segment that it has entered or created. -/
theorem increase (h : Inv s) {t : Tid} {id : Nat} {created : Bool}
    (hp : s.pc t = .increase id created) {s' : State Tid} (hs : s.advance t = some s') :
    Inv s' := by
  have role : (s.pc t).role = some (if created then .creating else .entering, id) := by
    rw [hp]; cases created <;> rfl
  have notHolding : ∀ id', (s.pc t).role ≠ some (.holding, id') := by
    intro id' e
    rw [role] at e
    cases created <;> cases e
  have lt := h.wf.created () id (h.named role)
  have new : t ∉ s.holders id := fun mem => notHolding id ((h.hold t id).mp mem)
  simp only [State.advance, hp] at hs
  cases hs
  have holding : (if created then Pc.setInit id else .opened id).role = some (.holding, id) := by
    cases created <;> rfl
  refine ⟨h.wf, h.current_update rfl rfl fun _ _ e => ?_, h.own_update fun _ _ e => ?_,
    fun u id' hu => ?_, h.started_update fun id' e => ?_, h.count_update ?_,
    h.nodup_update (List.nodup_cons.mpr ⟨new, h.nodup id⟩), fun u id' => ?_, h.fresh_update lt,
    fun u id' => h.removing_update (fun _ e => ?_) fun _ _ e u ne old => ?_⟩
  · rw [holding] at e; cases e; exact h.named role
  · cases created <;> cases e
  · obtain ⟨ne, old, notInit, none, only⟩ :=
      h.creator_update (fun _ e => by rw [holding] at e; cases e) hu
    -- the segment of another creator is not the one that is entered or created here
    have other : id' ≠ id := by
      rintro rfl
      cases created with
      | true => exact ne ((h.creator u id' old).2.2 t role).symm
      | false => rw [h.started t id' (by rw [hp]; rfl)] at notInit; cases notInit
    exact ⟨notInit, (Function.update_of_ne other ..).trans none, only⟩
  · cases created <;> cases e
    exact h.started t id (by rw [hp]; rfl)
  · rw [h.count, List.length_cons]
    unfold i32; push_cast; omega
  · simp only [State.goto]
    by_cases e : u = t
    · subst e
      rw [Function.update_self, holding]
      by_cases e' : id' = id
      · subst e'; simp
      · rw [Function.update_of_ne e', h.hold]
        refine iff_of_false (notHolding id') fun hu => e' ?_
        cases hu; rfl
    · rw [Function.update_of_ne e, ← h.hold]
      by_cases e' : id' = id
      · subst e'; simp [e]
      · rw [Function.update_of_ne e']
  · rw [holding] at e; cases e
  · rw [holding] at e
    cases e
    exact ne (h.removing u id old t _ role).symm

/-- The creator announces that the segment is laid out. -/
theorem setInit (h : Inv s) {t : Tid} {id : Nat} (hp : s.pc t = .setInit id) :
    Inv { s.goto t (.opened id) with isInit := Function.update s.isInit id true } := by
  have role : (s.pc t).role = some (.holding, id) := by rw [hp]; rfl
  have lt := h.wf.created () id (h.named role)
  have held : t ∈ s.holders id := (h.hold t id).mpr role
  have roles : ∀ u, ((s.goto t (.opened id)).pc u).role = (s.pc u).role :=
    (Function.forall_update_iff s.pc fun u q => q.role = (s.pc u).role).mpr
      ⟨role.symm, fun u _ => rfl⟩
  refine ⟨h.wf, h.current_update rfl rfl fun _ _ e => ?_, h.own_update fun _ _ => nofun,
    fun u id' hu => ?_, ?_, h.count, h.nodup, fun u id' => ?_, fun id' hid => ?_,
    fun u id' hu v r hv => ?_⟩ <;> simp only [roles] at *
  · cases e; exact h.named role
  · obtain ⟨h1, h2, h3⟩ := h.creator u id' hu
    have ne : id' ≠ id := by
      rintro rfl
      have none : s.holders id' = [] := h2
      rw [none] at held
      exact List.not_mem_nil held
    exact ⟨by rw [Function.update_of_ne ne]; exact h1, h2, h3⟩
  · refine (Function.forall_update_iff s.pc fun _ q => ∀ id', q.started = some id' →
      Function.update s.isInit id true id' = true).mpr ⟨fun id' e => ?_, fun u _ id' hu => ?_⟩
    · cases e; exact Function.update_self ..
    · rw [Function.update_apply, h.started u id' hu, ite_self]
  · exact h.hold u id'
  · have hid : s.shm.next ≤ id' := hid
    have ne : id' ≠ id := by omega
    rw [Function.update_of_ne ne]
    exact h.fresh id' hid
  · exact h.removing u id' hu v r hv

omit [DecidableEq Tid] in
/-- The last process that is counted is the last one that has to do with the segment. -/
theorem last_counted (h : Inv s) {t : Tid} {id : Nat} (hp : s.pc t = .decrease id)
    (zero : i32 (s.refCnt id - 1) = 0) (entering : ∀ u, (s.pc u).role ≠ some (.entering, id))
    (small : (s.holders id).length < 4294967296) {u : Tid} {r : Role}
    (hu : (s.pc u).role = some (r, id)) : u = t := by
  have role : (s.pc t).role = some (.holding, id) := by rw [hp]; rfl
  have started := h.started t id (by rw [hp]; rfl)
  have held : t ∈ s.holders id := (h.hold t id).mpr role
  have pos := List.length_pos_of_mem held
  have one : (s.holders id).length = 1 := by
    rw [h.count] at zero
    unfold i32 at zero; omega
  cases r with
  | entering => exact absurd hu (entering u)
  | creating => rw [(h.creator u id hu).1] at started; cases started
  | holding =>
    obtain ⟨w, hw⟩ := List.length_eq_one_iff.mp one
    have mem := (h.hold u id).mpr hu
    rw [hw, List.mem_singleton] at mem held
    rw [mem, held]
  | removing => exact (h.removing u id hu t _ role).symm

/-- A process takes itself out of the count. If it was the last one, nobody else has to do
with the segment. -/
theorem decrease (h : Inv s) {t : Tid} {id : Nat} (hp : s.pc t = .decrease id)
    (proper : i32 (s.refCnt id - 1) = 0 →
      (∀ u, (s.pc u).role ≠ some (.entering, id)) ∧ (s.holders id).length < 4294967296)
    {s' : State Tid} (hs : s.advance t = some s') : Inv s' := by
  have role : (s.pc t).role = some (.holding, id) := by rw [hp]; rfl
  have started := h.started t id (by rw [hp]; rfl)
  have lt := h.wf.created () id (h.named role)
  have held : t ∈ s.holders id := (h.hold t id).mpr role
  have length := List.length_erase_of_mem held
  have count : i32 (s.refCnt id - 1) = i32 ((s.holders id).erase t).length := by
    have pos := List.length_pos_of_mem held
    rw [h.count, length]
    unfold i32; omega
  have last : i32 (s.refCnt id - 1) = 0 → ∀ u r, (s.pc u).role = some (r, id) → u = t :=
    fun zero _ _ => h.last_counted hp zero (proper zero).1 (proper zero).2
  simp only [State.advance, hp] at hs
  cases hs
  have removing : ∀ {r id'}, (if i32 (s.refCnt id - 1) = 0 then Pc.lookupRemove id
      else .destroyed id).role = some (r, id') →
      r = .removing ∧ id' = id ∧ i32 (s.refCnt id - 1) = 0 := by
    intro r id' e
    split_ifs at e with zero <;> cases e
    exact ⟨rfl, rfl, zero⟩
  refine ⟨h.wf, h.current_update rfl rfl fun _ _ e => ?_, h.own_update fun _ _ e => ?_,
    fun u id' hu => ?_, h.started_update fun _ e => ?_, h.count_update count,
    h.nodup_update ((h.nodup id).erase t), fun u id' => ?_, h.fresh_update lt,
    fun u id' hu v r hv => ?_⟩
  · obtain ⟨-, rfl, -⟩ := removing e
    exact h.named role
  · split_ifs at e
  · obtain ⟨-, -, notInit, none, only⟩ :=
      h.creator_update (fun _ e => by cases (removing e).1) hu
    have ne : id' ≠ id := by rintro rfl; rw [notInit] at started; cases started
    exact ⟨notInit, (Function.update_of_ne ne ..).trans none, only⟩
  · split_ifs at e <;> cases e
  · simp only [State.goto]
    by_cases e' : id' = id
    · subst e'
      rw [Function.update_self, (h.nodup id').mem_erase_iff, h.hold]
      by_cases e : u = t
      · subst e; rw [Function.update_self]; split_ifs <;> simp [Pc.role]
      · rw [Function.update_of_ne e]; exact and_iff_right e
    · rw [Function.update_of_ne e', h.hold]
      by_cases e : u = t
      · subst e
        rw [Function.update_self, role]
        refine iff_of_false (fun hu => ?_) fun hu => e' (removing hu).2.1
        cases hu; exact e' rfl
      · rw [Function.update_of_ne e]
  · obtain ⟨rfl, e⟩ | ⟨ne, old⟩ := role_update hu
    · obtain ⟨-, rfl, zero⟩ := removing e
      obtain ⟨rfl, -⟩ | ⟨-, old'⟩ := role_update hv
      · rfl
      · exact last zero v r old'
    · obtain ⟨-, e⟩ | ⟨-, old'⟩ := role_update hv
      · obtain ⟨-, rfl, zero⟩ := removing e
        exact absurd (last zero u _ old) ne
      · exact h.removing u id' old v r old'

/-- A process removes the segment that concerns nobody else. -/
theorem remove (h : Inv s) {t : Tid} {id shmid : Nat} (hp : s.pc t = .remove id shmid) :
    Inv { s.goto t (.destroyed id) with shm := s.shm.remove shmid } := by
  have role : (s.pc t).role = some (.removing, id) := by rw [hp]; rfl
  have lt := h.wf.created () id (h.named role)
  obtain rfl := h.own t id shmid hp
  have others : s.shm.Current fun u (_ : Unit) id' => u ≠ t ∧ ∃ r, (s.pc u).role = some (r, id') :=
    h.current.mono rfl fun u _ id' ⟨_, hu⟩ => Or.inl hu
  refine h.keep (h.wf.remove lt)
    (others.remove (fun u _ ⟨ne, r, hu⟩ => ?_) fun u _ id' ⟨r, hu⟩ => ?_) rfl rfl rfl rfl rfl
    (Or.inr ⟨rfl, fun id' e => ?_⟩) (fun _ e => by cases e) fun _ _ e => by cases e
  · exact ne (h.removing t shmid role u r hu)
  · obtain ⟨-, hp⟩ | ⟨ne, old⟩ := role_update hu
    · cases hp
    · exact ⟨ne, r, old⟩
  · rw [role] at e; cases e

/-- A step that changes nothing but the point of the process and attachments. -/
theorem move (h : Inv s) {t : Tid} {p : Pc} {m : SharedMemory Unit} (wf : m.Wf)
    (named : m.named = s.shm.named) (next : m.next = s.shm.next)
    (role : p.role = (s.pc t).role ∨ p.role = none ∧ ∀ id, (s.pc t).role ≠ some (.holding, id))
    (started : ∀ id, p.started = some id → s.isInit id = true)
    (own : ∀ id shmid, p = .remove id shmid → shmid = id) : Inv { s.goto t p with shm := m } :=
  h.goto wf named next rfl rfl rfl rfl role started own

theorem again_role (tries : Nat) : (State.again tries).role = none := by cases tries <;> rfl

/-- Every proper step keeps the invariant. -/
theorem advance (h : Inv s) {t : Tid} (proper : Proper s t) {s' : State Tid}
    (hs : s.advance t = some s') : Inv s' := by
  cases hp : s.pc t with
  | idle => simp [State.advance, hp] at hs
  | opened id => simp [State.advance, hp] at hs
  | failed id => simp [State.advance, hp] at hs
  | destroyed id => simp [State.advance, hp] at hs
  | create tries =>
    simp only [State.advance, hp] at hs
    cases made : s.shm.create () with
    | none =>
      simp only [made] at hs
      cases hs
      exact h.move h.wf rfl rfl (Or.inl (by rw [hp]; rfl)) (fun _ e => by cases e)
        fun _ _ e => by cases e
    | some r =>
      simp only [made] at hs
      cases hs
      exact h.create made
  | openOnly tries =>
    simp only [State.advance, hp] at hs
    cases named : s.shm.lookup () with
    | none =>
      simp only [named] at hs
      cases hs
      exact h.move h.wf rfl rfl (Or.inl (by rw [hp, again_role]; rfl))
        (fun _ e => by cases tries <;> cases e) fun _ _ e => by cases tries <;> cases e
    | some id =>
      simp only [named] at hs
      cases hs
      exact h.enter hp named (proper.openOnly tries hp id named)
  | attachOpen tries id =>
    simp only [State.advance, hp] at hs
    cases made : s.shm.attach id with
    | none =>
      simp only [made] at hs
      cases hs
      exact h.move h.wf rfl rfl (Or.inr ⟨again_role tries, fun id' e => by rw [hp] at e; cases e⟩)
        (fun _ e => by cases tries <;> cases e) fun _ _ e => by cases tries <;> cases e
    | some m =>
      simp only [made] at hs
      cases hs
      have eq := SharedMemory.attach_eq made
      exact h.move (h.wf.attach made) (by rw [eq]) (by rw [eq]) (Or.inl (by rw [hp]; rfl))
        (fun _ e => by cases e) fun _ _ e => by cases e
  | attachNew id =>
    simp only [State.advance, hp] at hs
    cases made : s.shm.attach id with
    | none =>
      have present := h.wf.present (h.named (t := t) (r := .creating) (by rw [hp]; rfl))
      simp [SharedMemory.attach, present] at made
    | some m =>
      simp only [made] at hs
      cases hs
      have eq := SharedMemory.attach_eq made
      exact h.move (h.wf.attach made) (by rw [eq]) (by rw [eq]) (Or.inl (by rw [hp]; rfl))
        (fun _ e => by cases e) fun _ _ e => by cases e
  | layoutInit id =>
    -- the memory of the segment is as the constructor leaves it
    obtain ⟨h1, h2, -⟩ := h.creator t id (by rw [hp]; rfl)
    have zero : s.refCnt id = 0 := by rw [h.count, h2]; simp [i32]
    simp only [State.advance, hp] at hs
    cases hs
    exact h.goto h.wf rfl rfl (by rw [← zero]; exact Function.update_eq_self ..)
      (by rw [← h1]; exact Function.update_eq_self ..) rfl rfl (Or.inl (by rw [hp]; rfl))
      (fun _ e => by cases e) fun _ _ e => by cases e
  | increase id created => exact h.increase hp hs
  | setInit id =>
    simp only [State.advance, hp] at hs
    cases hs
    exact h.setInit hp
  | waitInit id =>
    simp only [State.advance, hp] at hs
    cases hs
    split_ifs with ready
    · exact h.move h.wf rfl rfl (Or.inl (by rw [hp]; rfl)) (fun _ e => by cases e; exact ready)
        fun _ _ e => by cases e
    · exact h
  | decrease id => exact h.decrease hp (proper.decrease id hp) hs
  | lookupRemove id =>
    simp only [State.advance, hp] at hs
    have role : (s.pc t).role = some (.removing, id) := by rw [hp]; rfl
    have found : s.shm.lookup () = some id := h.named role
    simp only [found] at hs
    cases hs
    exact h.move h.wf rfl rfl (Or.inl (by rw [hp]; rfl)) (fun _ e => by cases e)
      fun _ _ e => by cases e; rfl
  | remove id shmid =>
    simp only [State.advance, hp] at hs
    cases hs
    exact h.remove hp

theorem step (h : Inv s) {m : Tid × Move} (proper : m.2 = .step → Proper s m.1) {s' : State Tid}
    (hs : s.step m = some s') : Inv s' := by
  obtain ⟨t, _ | _ | _ | _ | _⟩ := m
  · cases hp : s.pc t <;> simp only [State.step, hp] at hs <;> cases hs
    exact h.move h.wf rfl rfl (Or.inl (by rw [hp]; rfl)) (fun _ e => by cases e)
      fun _ _ e => by cases e
  · exact h.advance (proper rfl) hs
  · cases hp : s.pc t <;> simp only [State.step, hp] at hs <;> cases hs
    exact h.move h.wf rfl rfl (Or.inr ⟨rfl, fun _ e => by rw [hp] at e; cases e⟩)
      (fun _ e => by cases e) fun _ _ e => by cases e
  · cases hp : s.pc t <;> simp only [State.step, hp] at hs <;> cases hs
    have started := h.started t _ (by rw [hp]; rfl)
    exact h.move h.wf rfl rfl (Or.inl (by rw [hp]; rfl)) (fun _ e => by cases e; exact started)
      fun _ _ e => by cases e
  · cases hp : s.pc t <;> simp only [State.step, hp] at hs
    case failed id =>
      cases id <;> cases hs
      · exact h.move h.wf rfl rfl (Or.inl (by rw [hp]; rfl)) (fun _ e => by cases e)
          fun _ _ e => by cases e
      · exact h.move (h.wf.detach _) rfl rfl (Or.inl (by rw [hp]; rfl)) (fun _ e => by cases e)
          fun _ _ e => by cases e
    case destroyed id =>
      cases hs
      exact h.move (h.wf.detach _) rfl rfl (Or.inl (by rw [hp]; rfl)) (fun _ e => by cases e)
        fun _ _ e => by cases e
    all_goals cases hs

end Inv

/-- The side condition on the steps of a run. -/
def proper (s : State Tid) (m : Tid × Move) (_ : State Tid) : Prop := m.2 = .step → Proper s m.1

/-- In every run in which nobody slips in between the last decrement and the removal, all
users of an option are attached to one segment. -/
theorem sameSegment_of_reach [DecidableEq Tid] {s : State Tid}
    (h : (machine Tid).Reach proper s) : SameSegment s := by
  have inv : Inv s := by
    refine h.inv (P := Inv) ?_ fun s m s' inv hs proper => inv.step proper hs
    rintro s rfl
    exact Inv.start
  exact inv.sameSegment

instance [DecidableEq Tid] [Fintype Tid] (s : State Tid) (t : Tid) : Decidable (Proper s t) :=
  match h : s.pc t with
  | .decrease id =>
    decidable_of_iff (i32 (s.refCnt id - 1) = 0 →
      (∀ u, (s.pc u).role ≠ some (.entering, id)) ∧ (s.holders id).length < 4294967296) (by
      refine ⟨fun ok => ⟨fun id' hp => ?_, fun tries hp => ?_⟩, fun ok => ok.decrease id h⟩
      · cases h.symm.trans hp; exact ok
      · cases h.symm.trans hp)
  | .openOnly tries =>
    match hl : s.shm.lookup () with
    | some id =>
      decidable_of_iff (∀ u, (s.pc u).role ≠ some (.removing, id)) (by
        refine ⟨fun ok => ⟨fun id' hp => ?_, fun tries hp id' found => ?_⟩,
          fun ok => ok.openOnly tries h id hl⟩
        · cases h.symm.trans hp
        · cases hl.symm.trans found; exact ok)
    | none =>
      .isTrue ⟨fun id' hp => (by cases h.symm.trans hp),
        fun _ _ id' found => (by cases hl.symm.trans found)⟩
  | .idle | .create _ | .attachOpen _ _ | .attachNew _ | .layoutInit _ | .increase _ _ | .setInit _
  | .waitInit _ | .opened _ | .failed _ | .lookupRemove _ | .remove _ _ | .destroyed _ =>
    .isTrue ⟨fun id' hp => (by cases h.symm.trans hp), fun _ hp => (by cases h.symm.trans hp)⟩

instance [DecidableEq Tid] [Fintype Tid] (s s' : State Tid) : (m : Tid × Move) →
    Decidable (proper s m s')
  | (t, .step) => decidable_of_iff (Proper s t) ⟨fun h _ => h, fun h => h rfl⟩
  | (_, .init) | (_, .timeout) | (_, .destroy) | (_, .exit) => .isTrue fun h => by cases h

/-- One process after the other opens and closes the segment, and then two share one. -/
def oneAfterTheOther : List (Fin 4 × Move) :=
  (0, .init) :: List.replicate 5 (0, .step) ++ (0, .destroy) :: List.replicate 3 (0, .step) ++
    [(1, .init), (2, .init), (1, .step), (2, .step), (2, .step), (2, .step), (1, .step),
      (1, .step), (1, .step), (1, .step), (2, .step), (2, .step)]

/-- The first segment is removed, and the two others are attached to the second one. -/
theorem sameSegment_of_reach_oneAfterTheOther :
    ∃ s, (machine (Fin 4)).run {} oneAfterTheOther = some s ∧
      s.pc 1 = .opened 1 ∧ s.pc 2 = .opened 1 ∧ SameSegment s := by
  have along : (machine (Fin 4)).Along proper {} oneAfterTheOther := by decide +kernel
  obtain ⟨s, run, reach⟩ := Machine.Reach.of_along (.start rfl) along
  have seen : ((machine (Fin 4)).run {} oneAfterTheOther).any (fun s =>
      decide (s.pc 1 = .opened 1 ∧ s.pc 2 = .opened 1)) = true := by decide +kernel
  rw [run, Option.any_some, decide_eq_true_eq] at seen
  exact ⟨s, run, seen.1, seen.2, sameSegment_of_reach reach⟩

/-- A process attaches to the segment before the last user of it decrements the count, and
increments the count after that. -/
def slipIn : List (Fin 4 × Move) :=
  (0, .init) :: List.replicate 5 (0, .step) ++ (1, .init) :: List.replicate 3 (1, .step) ++
    (0, .destroy) :: List.replicate 3 (0, .step) ++ List.replicate 2 (1, .step) ++
    (2, .init) :: List.replicate 5 (2, .step)

/-- The segment of this process is removed, so that the next one creates another. -/
theorem decrease_splits : ∃ s, (machine (Fin 4)).Reach Machine.free s ∧
    s.pc 1 = .opened 0 ∧ s.pc 2 = .opened 1 ∧ ¬SameSegment s := by
  have seen : ((machine (Fin 4)).run {} slipIn).any (fun s =>
      decide (s.pc 1 = .opened 0 ∧ s.pc 2 = .opened 1)) = true := by decide +kernel
  obtain ⟨s, run, seen⟩ := (Option.any_eq_true ..).mp seen
  obtain ⟨second, third⟩ := of_decide_eq_true seen
  refine ⟨s, Machine.Reach.of_run (.start rfl) run, second, third, fun same => ?_⟩
  have := same 1 2 0 1 second third
  omega

end XsiSegment

end Fuxi.Shm.Port
