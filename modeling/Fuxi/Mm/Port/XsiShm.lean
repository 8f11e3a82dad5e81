import Mathlib.Data.Fintype.Basic
import Fuxi.Lib.Machine
import Fuxi.Lib.SharedMemory

/-!
# `XsiShm` and `DomainMetadata`

The processes of a domain share one segment, which holds the layout of the domain. The
first process creates it and lays it out, the others attach to it and wait, and a process
that shuts down removes it.
-/

namespace Fuxi.Mm.Port

open Lib

variable {Tid Key : Type*}

namespace XsiShm

/-- What a process does next in `DomainMetadata::Init` of a domain and in `Shutdown`. -/
inductive Pc
  | idle
  | create (domainId : Int)
  | openOnly (domainId : Int)
  | attach (domainId : Int) (id : Nat) (isCreated : Bool)
  | layoutInit (domainId : Int) (id : Nat)
  | waitUntilReady (domainId : Int) (id : Nat)
  | ready (domainId : Int) (id : Nat)
  | lookupRemove (domainId : Int)
  | remove (domainId : Int) (id : Nat)
  deriving DecidableEq

/-- The kernel, the flags `header.inited` of the segments, and the processes. -/
structure State (Tid Key : Type*) where
  shm : SharedMemory Key := {}
  inited : Nat → Bool := fun _ => false
  pc : Tid → Pc := fun _ => .idle

/-- A process starts `Init` with a new object, goes on, or starts `Shutdown`. -/
inductive Move
  | init (domainId : Int)
  | step
  | shutdown

namespace State

variable [DecidableEq Tid] [DecidableEq Key]

def goto (s : State Tid Key) (t : Tid) (p : Pc) : State Tid Key :=
  { s with pc := Function.update s.pc t p }

/-- The next step of a process; `none` stands for a system call that fails otherwise than
by `EEXIST`. -/
def advance (ftok : Int → Key) (s : State Tid Key) (t : Tid) : Option (State Tid Key) :=
  match s.pc t with
  | .idle | .ready _ _ => none
  | .create d =>
    match s.shm.create (ftok d) with
    | some (m, id) => some { s.goto t (.attach d id true) with shm := m }
    | none => some (s.goto t (.openOnly d))
  | .openOnly d => (s.shm.lookup (ftok d)).map fun id => s.goto t (.attach d id false)
  | .attach d id isCreated =>
    (s.shm.attach id).map fun m =>
      { s.goto t (if isCreated then .layoutInit d id else .waitUntilReady d id) with shm := m }
  | .layoutInit d id =>
    some { s.goto t (.ready d id) with inited := Function.update s.inited id true }
  | .waitUntilReady d id => some (if s.inited id then s.goto t (.ready d id) else s)
  | .lookupRemove d =>
    match s.shm.lookup (ftok d) with
    | some id => some (s.goto t (.remove d id))
    | none => some (s.goto t .idle)
  | .remove _ id => some { s.goto t .idle with shm := s.shm.remove id }

def step (ftok : Int → Key) (s : State Tid Key) : Tid × Move → Option (State Tid Key)
  | (t, .init d) =>
    match s.pc t with
    | .idle => some (s.goto t (.create d))
    | _ => none
  | (t, .step) => s.advance ftok t
  | (t, .shutdown) =>
    match s.pc t with
    | .ready d id => some { s.goto t (.lookupRemove d) with shm := s.shm.detach id }
    | _ => none

end State

/-- Any number of processes; `ftok` gives the key of a domain. -/
def machine (Tid : Type*) [DecidableEq Tid] [DecidableEq Key] (ftok : Int → Key) :
    Machine (State Tid Key) (Tid × Move) where
  start s := s = {}
  step := State.step ftok

/-! ## One layout for all members of a domain -/

/-- The domain and the segment that a process uses, from its `shmget` until it starts
`Shutdown`. -/
def Pc.uses : Pc → Option (Int × Nat)
  | .attach d id _ | .layoutInit d id | .waitUntilReady d id | .ready d id => some (d, id)
  | .idle | .create _ | .openOnly _ | .lookupRemove _ | .remove _ _ => none

/-- All processes that have completed `Init` for a domain are attached to one segment. -/
def Agree (s : State Tid Key) : Prop :=
  ∀ t u d i j, s.pc t = .ready d i → s.pc u = .ready d j → i = j

/-- When a process is about to remove a segment, nobody uses it. -/
def Unused (s : State Tid Key) (t : Tid) : Prop :=
  ∀ d id, s.pc t = .remove d id → ∀ u d', (s.pc u).uses ≠ some (d', id)

/-- The uses of a state by key. -/
def uses (ftok : Int → Key) (s : State Tid Key) (t : Tid) (k : Key) (id : Nat) : Prop :=
  ∃ d, ftok d = k ∧ (s.pc t).uses = some (d, id)

/-- Whoever uses a domain uses the segment that its key names. -/
structure Inv (ftok : Int → Key) (s : State Tid Key) : Prop where
  wf : s.shm.Wf
  current : s.shm.Current (uses ftok s)
  created : ∀ t d id, s.pc t = .remove d id → id < s.shm.next

theorem Inv.start (ftok : Int → Key) : Inv ftok ({} : State Tid Key) :=
  ⟨SharedMemory.Wf.start, fun _ _ _ ⟨_, _, h⟩ => by simp [Pc.uses] at h,
    fun _ _ _ h => by simp at h⟩

theorem Inv.agree {ftok : Int → Key} {s : State Tid Key} (h : Inv ftok s) : Agree s :=
  fun _ _ d _ _ ht hu =>
    h.current.agree (k := ftok d) ⟨d, rfl, by rw [ht]; rfl⟩ ⟨d, rfl, by rw [hu]; rfl⟩

variable [DecidableEq Tid] {ftok : Int → Key} {s : State Tid Key}

theorem uses_update {pc : Tid → Pc} {t u : Tid} {p : Pc} {d : Int} {id : Nat}
    (hu : (Function.update pc t p u).uses = some (d, id)) :
    p.uses = some (d, id) ∧ u = t ∨ (pc u).uses = some (d, id) := by
  by_cases e : u = t
  · subst e
    rw [Function.update_self] at hu
    exact Or.inl ⟨hu, rfl⟩
  · rw [Function.update_of_ne e] at hu
    exact Or.inr hu

theorem Inv.created_update (h : Inv ftok s) {t : Tid} {p : Pc}
    (created : ∀ d id, p = .remove d id → id < s.shm.next) :
    ∀ u d id, Function.update s.pc t p u = .remove d id → id < s.shm.next :=
  (Function.forall_update_iff s.pc fun _ q => ∀ d id, q = .remove d id → id < s.shm.next).mpr
    ⟨created, fun u _ => h.created u⟩

/-- A process moves to a point where it uses what the key of a domain names, or nothing
new; the keys stay as they are. -/
theorem Inv.goto (h : Inv ftok s) {s' : State Tid Key} {t : Tid} {p : Pc} (wf : s'.shm.Wf)
    (named : s'.shm.named = s.shm.named) (next : s'.shm.next = s.shm.next)
    (pc : s'.pc = Function.update s.pc t p)
    (new : ∀ d id, p.uses = some (d, id) →
      (s.pc t).uses = some (d, id) ∨ s.shm.named (ftok d) = some id)
    (created : ∀ d id, p = .remove d id → id < s.shm.next) : Inv ftok s' := by
  refine ⟨wf, h.current.mono named fun u k id => ?_, ?_⟩
  · rintro ⟨d, rfl, hu⟩
    rw [pc] at hu
    obtain ⟨hp, rfl⟩ | old := uses_update hu
    · exact (new d id hp).imp (fun old => ⟨d, rfl, old⟩) fun named => named
    · exact Or.inl ⟨d, rfl, old⟩
  · rw [next, pc]
    exact h.created_update created

variable [DecidableEq Key]

/-- A step keeps the invariant if it removes no segment that is used. -/
theorem Inv.step (h : Inv ftok s) {m : Tid × Move} (unused : Unused s m.1) {s' : State Tid Key}
    (hs : s.step ftok m = some s') : Inv ftok s' := by
  obtain ⟨t, d | _ | _⟩ := m
  · cases hp : s.pc t <;> simp only [State.step, hp] at hs <;> cases hs
    exact h.goto h.wf rfl rfl rfl (fun _ _ e => by simp [Pc.uses] at e) fun _ _ e => by cases e
  · cases hp : s.pc t with
    | idle => simp [State.step, State.advance, hp] at hs
    | ready d id => simp [State.step, State.advance, hp] at hs
    | create d =>
      simp only [State.step, State.advance, hp] at hs
      cases hc : s.shm.create (ftok d) with
      | none =>
        simp only [hc] at hs
        cases hs
        exact h.goto h.wf rfl rfl rfl (fun _ _ e => by simp [Pc.uses] at e) fun _ _ e => by cases e
      | some made =>
        obtain ⟨m, id⟩ := made
        simp only [hc] at hs
        cases hs
        refine ⟨h.wf.create hc, h.current.create hc fun u k id' => ?_, fun u d' id' hu => ?_⟩
        · rintro ⟨d', rfl, hu⟩
          obtain ⟨hp, -⟩ | old := uses_update hu
          · cases hp
            exact Or.inr ⟨rfl, rfl⟩
          · exact Or.inl ⟨d', rfl, old⟩
        · obtain ⟨-, -, rfl⟩ := SharedMemory.create_eq hc
          exact Nat.lt_succ_of_lt (h.created_update (fun _ _ e => by cases e) u d' id' hu)
    | openOnly d =>
      simp only [State.step, State.advance, hp] at hs
      obtain ⟨id, named, rfl⟩ := Option.map_eq_some_iff.mp hs
      refine h.goto h.wf rfl rfl rfl (fun d' id' e => Or.inr ?_) fun _ _ e => by cases e
      cases e
      exact named
    | attach d id isCreated =>
      simp only [State.step, State.advance, hp] at hs
      obtain ⟨m, hm, rfl⟩ := Option.map_eq_some_iff.mp hs
      have eq := SharedMemory.attach_eq hm
      refine h.goto (h.wf.attach hm) (by rw [eq]) (by rw [eq]) rfl (fun d' id' e => Or.inl ?_)
        fun _ _ e => by cases isCreated <;> cases e
      rw [hp, ← e]
      cases isCreated <;> rfl
    | layoutInit d id =>
      simp only [State.step, State.advance, hp] at hs
      cases hs
      exact h.goto h.wf rfl rfl rfl (fun d' id' e => Or.inl (by rw [hp, ← e]; rfl))
        fun _ _ e => by cases e
    | waitUntilReady d id =>
      simp only [State.step, State.advance, hp] at hs
      cases hs
      split_ifs
      · exact h.goto h.wf rfl rfl rfl (fun d' id' e => Or.inl (by rw [hp, ← e]; rfl))
          fun _ _ e => by cases e
      · exact h
    | lookupRemove d =>
      simp only [State.step, State.advance, hp] at hs
      cases hl : s.shm.lookup (ftok d) with
      | none =>
        simp only [hl] at hs
        cases hs
        exact h.goto h.wf rfl rfl rfl (fun _ _ e => by simp [Pc.uses] at e) fun _ _ e => by cases e
      | some id =>
        simp only [hl] at hs
        cases hs
        refine h.goto h.wf rfl rfl rfl (fun _ _ e => by simp [Pc.uses] at e) fun d' id' e => ?_
        cases e
        exact h.wf.created _ _ hl
    | remove d id =>
      simp only [State.step, State.advance, hp] at hs
      cases hs
      have current : s.shm.Current (uses ftok s) := h.current
      refine ⟨h.wf.remove (h.created t d id hp), current.remove ?_ ?_,
        h.created_update fun _ _ => nofun⟩
      · rintro u k ⟨d', -, hu⟩
        exact unused d id hp u d' hu
      · rintro u k id' ⟨d', rfl, hu⟩
        obtain ⟨hp, -⟩ | old := uses_update hu
        · cases hp
        · exact ⟨d', rfl, old⟩
  · cases hp : s.pc t <;> simp only [State.step, hp] at hs <;> cases hs
    exact h.goto (h.wf.detach _) rfl rfl rfl (fun _ _ e => by simp [Pc.uses] at e)
      fun _ _ e => by cases e

/-- Segments are removed only when nobody uses them. -/
def removesUnused (s : State Tid Key) (m : Tid × Move) (_ : State Tid Key) : Prop := Unused s m.1

/-- In every run that removes no segment in use, all members of a domain see one layout. -/
theorem agree_of_reach (ftok : Int → Key) {s : State Tid Key}
    (h : (machine Tid ftok).Reach removesUnused s) : Agree s := by
  have inv : Inv ftok s := by
    refine h.inv (P := Inv ftok) ?_ fun s m s' inv hs unused => inv.step unused hs
    rintro s rfl
    exact Inv.start ftok
  exact inv.agree

instance [Fintype Tid] (s s' : State Tid Key) (m : Tid × Move) :
    Decidable (removesUnused s m s') :=
  match h : s.pc m.1 with
  | .remove d id =>
    decidable_of_iff (∀ u, (s.pc u).uses.map Prod.snd ≠ some id) (by
      refine ⟨fun none d' id' hp u d'' e => ?_, fun unused u e => ?_⟩
      · cases h.symm.trans hp
        exact none u (by rw [e]; rfl)
      · obtain ⟨⟨d', id'⟩, hu, rfl⟩ := Option.map_eq_some_iff.mp e
        exact unused d id' h u d' hu)
  | .idle | .create _ | .openOnly _ | .attach _ _ _ | .layoutInit _ _ | .waitUntilReady _ _
  | .ready _ _ | .lookupRemove _ => .isTrue fun d id hp => by cases h.symm.trans hp

/-- One member comes and goes, and then two others share a new layout. -/
def comeAndGo : List (Fin 3 × Move) :=
  [(0, .init 5), (0, .step), (0, .step), (0, .step), (0, .shutdown), (0, .step), (0, .step),
    (1, .init 5), (2, .init 5), (1, .step), (2, .step), (2, .step), (2, .step), (1, .step),
    (2, .step), (1, .step), (2, .step)]

/-- The segment that the first member removes is unused, and the others agree. -/
theorem agree_of_reach_comeAndGo : ∃ s, (machine (Fin 3) id).run {} comeAndGo = some s ∧
    s.pc 1 = .ready 5 1 ∧ s.pc 2 = .ready 5 1 ∧ Agree s := by
  have along : (machine (Fin 3) id).Along removesUnused {} comeAndGo := by decide +kernel
  obtain ⟨s, run, reach⟩ := Machine.Reach.of_along (.start rfl) along
  have seen : ((machine (Fin 3) id).run {} comeAndGo).any (fun s =>
      decide (s.pc 1 = .ready 5 1 ∧ s.pc 2 = .ready 5 1)) = true := by decide +kernel
  rw [run, Option.any_some, decide_eq_true_eq] at seen
  exact ⟨s, run, seen.1, seen.2, agree_of_reach id reach⟩

/-- Two members share a layout, one of them leaves, and a third one comes. -/
def leaveAndCome : List (Fin 3 × Move) :=
  [(0, .init 5), (0, .step), (0, .step), (0, .step), (1, .init 5), (1, .step), (1, .step),
    (1, .step), (1, .step), (1, .shutdown), (1, .step), (1, .step),
    (2, .init 5), (2, .step), (2, .step), (2, .step)]

/-- The member that leaves removes the segment that the first one uses, so the third one
creates another. -/
theorem shutdown_splits : ∃ s, (machine (Fin 3) id).Reach Machine.free s ∧
    s.pc 0 = .ready 5 0 ∧ s.pc 2 = .ready 5 1 ∧ ¬Agree s := by
  have seen : ((machine (Fin 3) id).run {} leaveAndCome).any (fun s =>
      decide (s.pc 0 = .ready 5 0 ∧ s.pc 2 = .ready 5 1)) = true := by decide +kernel
  obtain ⟨s, run, seen⟩ := (Option.any_eq_true ..).mp seen
  obtain ⟨first, third⟩ := of_decide_eq_true seen
  refine ⟨s, Machine.Reach.of_run (.start rfl) run, first, third, fun agree => ?_⟩
  have := agree 0 2 5 0 1 first third
  omega

end XsiShm

end Fuxi.Mm.Port
