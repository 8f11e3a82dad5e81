import Mathlib.Logic.Function.Basic
import Mathlib.Order.Basic
import Mathlib.Tactic.SplitIfs

/-!
# System V shared memory

Keys name segments. `IPC_RMID` frees the key of a segment at once, and the segment itself
lives on until the last attachment is gone.
-/

namespace Fuxi.Lib

/-- The segments of the kernel; segments are numbered in the order of their creation, and
`next` is the number of the next one. -/
structure SharedMemory (Key : Type*) where
  named : Key → Option Nat := fun _ => none
  next : Nat := 0
  attached : Nat → Nat := fun _ => 0
  removed : Nat → Bool := fun _ => false

namespace SharedMemory

variable {Key Proc : Type*}

/-- `shmget` without `IPC_CREAT`. -/
def lookup (m : SharedMemory Key) (k : Key) : Option Nat := m.named k

/-- `shmget` with `IPC_CREAT | IPC_EXCL`, or `none` for `EEXIST`. -/
def create [DecidableEq Key] (m : SharedMemory Key) (k : Key) : Option (SharedMemory Key × Nat) :=
  match m.named k with
  | some _ => none
  | none =>
    some ({ m with named := Function.update m.named k (some m.next), next := m.next + 1 }, m.next)

/-- The segment is there: not removed, or still attached somewhere. -/
def present (m : SharedMemory Key) (id : Nat) : Bool :=
  decide (id < m.next) && (!m.removed id || decide (0 < m.attached id))

/-- `shmat`, or `none` if it fails. -/
def attach (m : SharedMemory Key) (id : Nat) : Option (SharedMemory Key) :=
  if m.present id then
    some { m with attached := Function.update m.attached id (m.attached id + 1) }
  else none

/-- `shmdt`. -/
def detach (m : SharedMemory Key) (id : Nat) : SharedMemory Key :=
  { m with attached := Function.update m.attached id (m.attached id - 1) }

/-- `shmctl` with `IPC_RMID`. -/
def remove (m : SharedMemory Key) (id : Nat) : SharedMemory Key :=
  { m with
    named := fun k => if m.named k = some id then none else m.named k
    removed := Function.update m.removed id true }

/-- A key names a segment that has been created and not been removed. -/
structure Wf (m : SharedMemory Key) : Prop where
  created : ∀ k id, m.named k = some id → id < m.next
  live : ∀ k id, m.named k = some id → m.removed id = false
  unremoved : ∀ id, m.next ≤ id → m.removed id = false

/-- All uses of a key are uses of the segment that the key names. -/
def Current (m : SharedMemory Key) (uses : Proc → Key → Nat → Prop) : Prop :=
  ∀ t k id, uses t k id → m.named k = some id

section Steps

variable {m m' : SharedMemory Key} {uses uses' : Proc → Key → Nat → Prop} {id : Nat}

theorem Wf.start : ({} : SharedMemory Key).Wf :=
  ⟨fun _ _ h => by simp at h, fun _ _ h => by simp at h, fun _ _ => rfl⟩

/-- A segment that a key names can be attached. -/
theorem Wf.present (h : m.Wf) {k : Key} (named : m.named k = some id) : m.present id = true := by
  simp [SharedMemory.present, h.created k id named, h.live k id named]

theorem attach_eq (h : m.attach id = some m') :
    m' = { m with attached := Function.update m.attached id (m.attached id + 1) } := by
  unfold attach at h
  split_ifs at h
  cases h
  rfl

theorem Wf.attach (h : m.Wf) (made : m.attach id = some m') : m'.Wf := by
  cases attach_eq made
  exact ⟨h.created, h.live, h.unremoved⟩

theorem Wf.detach (h : m.Wf) (id : Nat) : (m.detach id).Wf := ⟨h.created, h.live, h.unremoved⟩

theorem Wf.remove (h : m.Wf) (made : id < m.next) : (m.remove id).Wf := by
  have old : ∀ k id', (m.remove id).named k = some id' → m.named k = some id' ∧ id' ≠ id := by
    intro k id' named
    simp only [SharedMemory.remove] at named
    split_ifs at named with e
    exact ⟨named, fun eq => e (eq ▸ named)⟩
  refine ⟨fun k id' named => h.created k id' (old k id' named).1, fun k id' named => ?_,
    fun id' hid => ?_⟩
  · obtain ⟨named, ne⟩ := old k id' named
    simp only [SharedMemory.remove, Function.update_of_ne ne]
    exact h.live k id' named
  · have ne : id' ≠ id := by simp only [SharedMemory.remove] at hid; omega
    simp only [SharedMemory.remove, Function.update_of_ne ne]
    exact h.unremoved id' hid

/-- Two users of a key use the same segment. -/
theorem Current.agree (h : m.Current uses) {t u : Proc} {k : Key} {i j : Nat} (ht : uses t k i)
    (hu : uses u k j) : i = j :=
  Option.some.inj ((h t k i ht).symm.trans (h u k j hu))

/-- Users appear only by looking up their key, and the keys stay as they are. -/
theorem Current.mono (h : m.Current uses) (named : m'.named = m.named)
    (le : ∀ t k id, uses' t k id → uses t k id ∨ m.named k = some id) : m'.Current uses' := by
  intro t k id use
  rw [named]
  rcases le t k id use with old | new
  · exact h t k id old
  · exact new

/-- A segment without users is removed. -/
theorem Current.remove (h : m.Current uses) (unused : ∀ t k, ¬uses t k id)
    (le : ∀ t k id', uses' t k id' → uses t k id') : (m.remove id).Current uses' := by
  intro t k id' use
  have old := le t k id' use
  have ne : id' ≠ id := by rintro rfl; exact unused t k old
  simp [SharedMemory.remove, h t k id' old, ne]

variable [DecidableEq Key]

theorem create_eq {k : Key} (h : m.create k = some (m', id)) :
    m.named k = none ∧ id = m.next ∧
      m' = { m with named := Function.update m.named k (some m.next), next := m.next + 1 } := by
  unfold create at h
  cases hk : m.named k <;> rw [hk] at h <;> cases h
  exact ⟨rfl, rfl, rfl⟩

theorem Wf.create (h : m.Wf) {k : Key} (made : m.create k = some (m', id)) : m'.Wf := by
  obtain ⟨-, rfl, rfl⟩ := create_eq made
  have old : ∀ k' id', Function.update m.named k (some m.next) k' = some id' →
      m.named k' = some id' ∨ id' = m.next := by
    intro k' id' named
    by_cases e : k' = k
    · subst e; simp at named; exact Or.inr named.symm
    · rw [Function.update_of_ne e] at named; exact Or.inl named
  refine ⟨fun k' id' named => ?_, fun k' id' named => ?_, fun id' hid => h.unremoved id' ?_⟩
  · rcases old k' id' named with named | rfl
    · exact Nat.lt_succ_of_lt (h.created k' id' named)
    · exact Nat.lt_succ_self _
  · rcases old k' id' named with named | rfl
    · exact h.live k' id' named
    · exact h.unremoved _ (Nat.le_refl _)
  · simp only at hid; omega

/-- The creator of a segment is its first user. -/
theorem Current.create (h : m.Current uses) {k : Key} (made : m.create k = some (m', id))
    (le : ∀ t k' id', uses' t k' id' → uses t k' id' ∨ k' = k ∧ id' = id) : m'.Current uses' := by
  obtain ⟨free, rfl, rfl⟩ := create_eq made
  intro t k' id' use
  simp only
  rcases le t k' id' use with old | ⟨rfl, rfl⟩
  · have ne : k' ≠ k := by rintro rfl; rw [h t k' id' old] at free; cases free
    rw [Function.update_of_ne ne]
    exact h t k' id' old
  · rw [Function.update_self]

end Steps

end SharedMemory

end Fuxi.Lib
