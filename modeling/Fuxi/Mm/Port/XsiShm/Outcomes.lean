import Fuxi.Lib.Machine

/-!
# What `XsiShm::Init` makes of its system calls

The outcomes of `shmget` and `shmat` travel through `OpenOrCreate` and `OpenOnly`, which return
false when they fail. `Init` does not look at their result, and `DomainMetadata::Init` goes by the
result of `Init`.
-/

namespace Fuxi.Mm.Port

open Lib

/-- What a `shmget` returns: an id, or -1 with `errno`. -/
inductive Shmget
  | id (shmid : Nat)
  | eexist
  | einval
  | otherError
  deriving DecidableEq

/-- The outcomes of the calls of one `OpenOrCreate`: of the `shmget`s that create, by their
number, of the one in `OpenOnly`, and of `shmat`, which returns an address or `(void*)-1`. -/
structure Outcomes where
  create : Nat → Shmget
  openOnly : Shmget := .otherError
  shmat : Option Nat := none

/-- `managed_shm_`. -/
inductive ManagedShm
  | null
  | failed
  | attached (shmid addr : Nat)
  deriving DecidableEq

/-- The address of an attached segment. -/
def ManagedShm.IsAttached : ManagedShm → Prop
  | .attached _ _ => True
  | .null | .failed => False

instance : (m : ManagedShm) → Decidable m.IsAttached
  | .attached _ _ => inferInstanceAs (Decidable True)
  | .null | .failed => inferInstanceAs (Decidable False)

/-- `XsiShm`, without what it passes to the system calls. -/
structure XsiShm where
  inited : Bool := false
  isCreated : Bool := false
  managedShm : ManagedShm := .null

/-- `DomainMetadata`; nothing sets its `inited`. -/
structure DomainMetadata where
  inited : Bool := false
  shm : XsiShm := {}
  layout : ManagedShm := .null

namespace XsiShm

/-- `shmat` of a segment; `(void*)-1` is stored as well. -/
def attach (s : XsiShm) (o : Outcomes) (shmid : Nat) : XsiShm × Bool :=
  match o.shmat with
  | some addr => ({ s with managedShm := .attached shmid addr }, true)
  | none => ({ s with managedShm := .failed }, false)

/-- `OpenOnly`. -/
def openOnly (s : XsiShm) (o : Outcomes) : XsiShm × Bool :=
  match o.openOnly with
  | .id shmid => s.attach o shmid
  | _ => (s, false)

/-- The loop of `OpenOrCreate`: what the last `shmget` has returned, with so many left. -/
def shmgetLoop (o : Outcomes) : Nat → Nat → Shmget
  | 0, _ => .einval
  | left + 1, retry =>
    match o.create retry with
    | .einval => shmgetLoop o left (retry + 1)
    | answer => answer

/-- `OpenOrCreate`. -/
def openOrCreate (s : XsiShm) (o : Outcomes) : XsiShm × Bool :=
  match shmgetLoop o 2 0 with
  | .eexist => s.openOnly o
  | .einval | .otherError => (s, false)
  | .id shmid =>
    match s.attach o shmid with
    | (s', true) => ({ s' with isCreated := true }, true)
    | (s', false) => (s', false)

/-- `Init`. -/
def init (s : XsiShm) (o : Outcomes) : XsiShm × Bool :=
  if s.inited then (s, true) else ({ (s.openOrCreate o).1 with inited := true }, true)

/-- `Shutdown`. -/
def shutdown (s : XsiShm) : XsiShm :=
  if s.inited then { s with inited := false, managedShm := .null } else s

end XsiShm

namespace DomainMetadata

/-- `Init`: the result, and the address that it has used as that of the layout. -/
def init (m : DomainMetadata) (o : Outcomes) : DomainMetadata × Bool × Option ManagedShm :=
  if m.inited then (m, true, none)
  else
    let r := m.shm.init o
    if r.2 = false then ({ m with shm := r.1 }, false, none)
    else ({ m with shm := r.1, layout := r.1.managedShm }, true, some r.1.managedShm)

/-- `DomainMetadata::Init`, and `Shutdown` of the segment. -/
inductive Call
  | init (o : Outcomes)
  | shutdown

def machine : Machine DomainMetadata Call where
  start m := m = {}
  step m
    | .init o => some (m.init o).1
    | .shutdown => some { m with shm := m.shm.shutdown }

end DomainMetadata

/-- The answer that counts: the second one if the first is `EINVAL`. -/
def Outcomes.answer (o : Outcomes) : Shmget :=
  if o.create 0 = .einval then o.create 1 else o.create 0

/-- A segment is created or found, and attached. -/
def Outcomes.Attaches (o : Outcomes) : Prop :=
  o.shmat ≠ none ∧ ∃ shmid, o.answer = .id shmid ∨ o.answer = .eexist ∧ o.openOnly = .id shmid

/-- The object is attached already, or a new object gets attached. -/
def DomainMetadata.Attaches (m : DomainMetadata) (o : Outcomes) : Prop :=
  if m.shm.inited then m.shm.managedShm.IsAttached else o.Attaches

/-- `Init` of the segment succeeds only if it is attached, and else it says so and leaves the
object as new, so that a later `Init` may attach it; the layout is used only in an attached
segment. -/
structure DomainMetadata.ReportsFailure (m : DomainMetadata) (o : Outcomes) : Prop where
  init : (m.shm.init o).2 = true ∧ (m.shm.init o).1.managedShm.IsAttached ∨
    (m.shm.init o).2 = false ∧ (m.shm.init o).1.managedShm = .null ∧
      (m.shm.init o).1.inited = false
  again : (m.shm.init o).2 = false → ∀ o', o'.Attaches →
    ((m.shm.init o).1.init o').1.managedShm.IsAttached
  layout : ∀ a, (m.init o).2.2 = some a → a.IsAttached

/-! ## The calls of one `Init` -/

namespace XsiShm

variable (s : XsiShm) (o : Outcomes)

theorem shmgetLoop_eq : shmgetLoop o 2 0 = o.answer := by
  unfold Outcomes.answer
  simp only [shmgetLoop, Nat.zero_add]
  cases o.create 0 <;> cases o.create 1 <;> rfl

theorem attach_cases (shmid : Nat) :
    (∃ addr, o.shmat = some addr ∧
      s.attach o shmid = ({ s with managedShm := .attached shmid addr }, true)) ∨
    o.shmat = none ∧ s.attach o shmid = ({ s with managedShm := .failed }, false) := by
  unfold attach
  cases o.shmat with
  | some addr => exact Or.inl ⟨addr, rfl, rfl⟩
  | none => exact Or.inr ⟨rfl, rfl⟩

/-- `OpenOrCreate` of an object that is not attached attaches it exactly if the calls allow it. -/
theorem openOrCreate_attached (new : s.managedShm = .null) :
    (s.openOrCreate o).1.managedShm.IsAttached ↔ o.Attaches := by
  unfold openOrCreate Outcomes.Attaches
  rw [shmgetLoop_eq]
  cases answer : o.answer with
  | id shmid =>
    obtain ⟨addr, at_, eq⟩ | ⟨none, eq⟩ := s.attach_cases o shmid
    · simp [eq, at_, ManagedShm.IsAttached]
    · simp [eq, none, ManagedShm.IsAttached]
  | eexist =>
    cases found : o.openOnly with
    | id shmid =>
      obtain ⟨addr, at_, eq⟩ | ⟨none, eq⟩ := s.attach_cases o shmid
      · simp [openOnly, found, eq, at_, ManagedShm.IsAttached]
      · simp [openOnly, found, eq, none, ManagedShm.IsAttached]
    | _ => simp [openOnly, found, new, ManagedShm.IsAttached]
  | _ => simp [new, ManagedShm.IsAttached]

/-- `Init` returns true in any case. -/
theorem init_result : (s.init o).2 = true := by
  unfold init
  split_ifs <;> rfl

theorem init_attached (new : s.inited = false → s.managedShm = .null) :
    (s.init o).1.managedShm.IsAttached ↔
      if s.inited then s.managedShm.IsAttached else o.Attaches := by
  unfold init
  split_ifs with inited
  · rfl
  · exact s.openOrCreate_attached o (new (eq_false_of_ne_true inited))

end XsiShm

/-! ## Runs -/

namespace DomainMetadata

variable {m : DomainMetadata}

/-- What calls keep: an object that is not initialised is not attached, and the flag of the
metadata is never set. -/
structure Inv (m : DomainMetadata) : Prop where
  new : m.shm.inited = false → m.shm.managedShm = .null
  inited : m.inited = false

theorem inv_of_reach (h : machine.Reach Machine.free m) : m.Inv := by
  refine h.inv ?_ fun m call m' inv step _ => ?_
  · rintro m rfl
    exact ⟨fun _ => rfl, rfl⟩
  · cases call with
    | init o =>
      cases step
      simp only [init, inv.inited, m.shm.init_result o, Bool.false_eq_true, if_false,
        Bool.true_eq_false]
      refine ⟨fun none => ?_, rfl⟩
      simp only [XsiShm.init] at none
      split_ifs at none with inited
      exact absurd (inited.symm.trans none) (by decide)
    | shutdown =>
      cases step
      refine ⟨?_, inv.inited⟩
      simp only [XsiShm.shutdown]
      split_ifs with inited
      · exact fun _ => rfl
      · exact inv.new

/-- After any calls, `Init` reports a failure exactly if there is none to report. -/
theorem reportsFailure_iff_of_reach (h : machine.Reach Machine.free m) (o : Outcomes) :
    m.ReportsFailure o ↔ m.Attaches o := by
  have inv := inv_of_reach h
  have result := m.shm.init_result o
  rw [Attaches, ← m.shm.init_attached o inv.new]
  constructor
  · rintro ⟨⟨-, attached⟩ | ⟨failed, -⟩, -, -⟩
    · exact attached
    · exact absurd (result.symm.trans failed) (by decide)
  · intro attached
    refine ⟨Or.inl ⟨result, attached⟩, fun failed => ?_, fun a used => ?_⟩
    · exact absurd (result.symm.trans failed) (by decide)
    simp only [init, inv.inited, result, Bool.false_eq_true, if_false, Bool.true_eq_false,
      Option.some.injEq] at used
    exact used ▸ attached

/-- The segment exists, and is attached. -/
theorem reportsFailure_iff_of_reach_open :
    ReportsFailure {} ⟨fun _ => .eexist, .id 3, some 4096⟩ :=
  (reportsFailure_iff_of_reach (.start rfl) _).mpr ⟨by decide, 3, Or.inr ⟨rfl, rfl⟩⟩

/-- `shmat` fails: `Init` returns true, and the layout is taken to be at `(void*)-1`. -/
theorem init_hides_failure :
    let o : Outcomes := { create := fun _ => .id 3 }
    machine.Reach Machine.free {} ∧ (XsiShm.init {} o).2 = true ∧
      (init {} o).2.2 = some .failed ∧ ¬ReportsFailure {} o := by
  refine ⟨.start rfl, rfl, rfl, fun reports => ?_⟩
  exact reports.layout .failed rfl

end DomainMetadata

end Fuxi.Mm.Port
