import Mathlib.Data.List.Infix
import Mathlib.Logic.Function.Basic

/-!
# File trees

The nodes of a file system stand at places, which are known by the names that lead to them. A
path is looked up hop by hop, and every hop starts from a directory. Nodes are added, and none
is removed, so what has been found once is found again.
-/

namespace Fuxi.Lib

variable {Name Node : Type*}

/-- The names that lead from the root to a place, the last one first. -/
abbrev Place (Name : Type*) := List Name

/-- A component of a path. -/
inductive Hop (Name : Type*)
  | self
  | parent
  | child (name : Name)
  deriving DecidableEq

/-- The place after a hop; the root is its own parent. -/
def Hop.go (p : Place Name) : Hop Name → Place Name
  | .self => p
  | .parent => p.tail
  | .child name => name :: p

/-- The place after some hops. -/
def Place.go (p : Place Name) (hs : List (Hop Name)) : Place Name := hs.foldl Hop.go p

@[simp] theorem Place.go_append (p : Place Name) (hs : List (Hop Name)) (h : Hop Name) :
    Place.go p (hs ++ [h]) = h.go (Place.go p hs) := by
  simp [Place.go]

/-- How a call fails: there is no directory on the way, the name is taken, or otherwise. -/
inductive Errno
  | noent
  | exist
  | other
  deriving DecidableEq

structure FileTree (Name Node : Type*) where
  node : Place Name → Option Node

namespace FileTree

variable (dir : Node → Bool) (t : FileTree Name Node)

def dirAt (p : Place Name) : Bool := (t.node p).any dir

/-- Look up a path from a place; what it leads to need not exist. -/
def walk (p : Place Name) : List (Hop Name) → Option (Place Name)
  | [] => some p
  | h :: hs => if t.dirAt dir p then walk (h.go p) hs else none

/-- The node that a path leads to. -/
def stat (p : Place Name) (hs : List (Hop Name)) : Option Node := (t.walk dir p hs).bind t.node

/-- A new node at a place. -/
def add [DecidableEq Name] (p : Place Name) (new : Node) : FileTree Name Node :=
  ⟨Function.update t.node p (some new)⟩

/-- Make a directory where a path leads to. -/
def mkdir [DecidableEq Name] (p : Place Name) (hs : List (Hop Name)) (new : Node) :
    Except Errno (FileTree Name Node) :=
  match t.walk dir p hs with
  | none => .error .noent
  | some q => if (t.node q).isSome then .error .exist else .ok (t.add q new)

variable {t} {t' : FileTree Name Node} {dir}

/-- Nodes have been added. -/
def Grows (t t' : FileTree Name Node) : Prop := ∀ p n, t.node p = some n → t'.node p = some n

theorem Grows.refl (t : FileTree Name Node) : t.Grows t := fun _ _ h => h

theorem dirAt_iff {p : Place Name} :
    t.dirAt dir p = true ↔ ∃ n, t.node p = some n ∧ dir n = true := by
  simp [dirAt, Option.any_eq_true]

theorem Grows.dirAt (h : t.Grows t') {p : Place Name} (is : t.dirAt dir p = true) :
    t'.dirAt dir p = true := by
  obtain ⟨n, found, isDir⟩ := dirAt_iff.mp is
  exact dirAt_iff.mpr ⟨n, h p n found, isDir⟩

/-- What has been found is found again. -/
theorem Grows.walk (h : t.Grows t') {p q : Place Name} {hs : List (Hop Name)}
    (found : t.walk dir p hs = some q) : t'.walk dir p hs = some q := by
  induction hs generalizing p with
  | nil => exact found
  | cons k hs ih =>
    rw [FileTree.walk] at found ⊢
    split_ifs at found with is
    rw [if_pos (h.dirAt is)]
    exact ih found

theorem walk_append (p : Place Name) (hs : List (Hop Name)) (h : Hop Name) :
    t.walk dir p (hs ++ [h]) =
      (t.walk dir p hs).bind fun q => if t.dirAt dir q then some (h.go q) else none := by
  induction hs generalizing p with
  | nil => rfl
  | cons k hs ih =>
    simp only [List.cons_append, walk]
    split_ifs
    · exact ih _
    · rfl

/-- A path leads to the place that its hops give. -/
theorem walk_eq_go {p q : Place Name} {hs : List (Hop Name)} (h : t.walk dir p hs = some q) :
    q = p.go hs := by
  induction hs generalizing p with
  | nil => exact (Option.some.inj h).symm
  | cons k hs ih =>
    rw [walk] at h
    split_ifs at h
    exact ih h

/-- The path leads to a directory. -/
def Leads (dir : Node → Bool) (t : FileTree Name Node) (p : Place Name) (hs : List (Hop Name)) :
    Prop :=
  t.walk dir p hs = some (p.go hs) ∧ t.dirAt dir (p.go hs) = true

theorem Grows.leads (h : t.Grows t') {p : Place Name} {hs : List (Hop Name)}
    (l : t.Leads dir p hs) : t'.Leads dir p hs := ⟨h.walk l.1, h.dirAt l.2⟩

/-- The same node is found again. -/
theorem Grows.stat (h : t.Grows t') {p : Place Name} {hs : List (Hop Name)} {n : Node}
    (found : t.stat dir p hs = some n) : t'.stat dir p hs = some n := by
  obtain ⟨q, walk, node⟩ := Option.bind_eq_some_iff.mp found
  exact Option.bind_eq_some_iff.mpr ⟨q, h.walk walk, h q n node⟩

theorem Leads.stat {p : Place Name} {hs : List (Hop Name)} (l : t.Leads dir p hs) :
    ∃ n, t.stat dir p hs = some n := by
  obtain ⟨n, node, -⟩ := dirAt_iff.mp l.2
  exact ⟨n, Option.bind_eq_some_iff.mpr ⟨_, l.1, node⟩⟩

theorem leads_nil {p : Place Name} (is : t.dirAt dir p = true) : t.Leads dir p [] := ⟨rfl, is⟩

/-- A path that leads to a directory and has one hop more leads somewhere. -/
theorem Leads.walk_append {p : Place Name} {hs : List (Hop Name)} (l : t.Leads dir p hs)
    (h : Hop Name) : t.walk dir p (hs ++ [h]) = some (p.go (hs ++ [h])) := by
  rw [FileTree.walk_append, l.1, Option.bind_some, if_pos l.2, Place.go_append]

/-- There are no nodes but directories on the way. -/
def Clear (dir : Node → Bool) (t : FileTree Name Node) (p : Place Name) (hs : List (Hop Name)) :
    Prop :=
  ∀ ks, ks <+: hs → ∀ n, t.node (p.go ks) = some n → dir n = true

theorem Clear.mono {p : Place Name} {hs ks : List (Hop Name)} (h : t.Clear dir p hs)
    (before : ks <+: hs) : t.Clear dir p ks := fun js pre => h js (pre.trans before)

variable [DecidableEq Name]

@[simp] theorem node_add_self (p : Place Name) (new : Node) : (t.add p new).node p = some new :=
  Function.update_self ..

theorem node_add_of_ne {p q : Place Name} (ne : q ≠ p) (new : Node) :
    (t.add p new).node q = t.node q := Function.update_of_ne ne ..

theorem grows_add {p : Place Name} (free : t.node p = none) (new : Node) :
    t.Grows (t.add p new) := by
  intro q n found
  by_cases same : q = p
  · rw [same, free] at found
    cases found
  · rwa [node_add_of_ne same]

/-- A new directory is not in the way. -/
theorem Clear.add {p : Place Name} {hs : List (Hop Name)} (h : t.Clear dir p hs) {q : Place Name}
    {new : Node} (isDir : (∃ ks, ks <+: hs ∧ p.go ks = q) → dir new = true) :
    (t.add q new).Clear dir p hs := by
  intro ks pre n found
  by_cases same : p.go ks = q
  · rw [same, node_add_self] at found
    cases found
    exact isDir ⟨ks, pre, same⟩
  · rw [node_add_of_ne same] at found
    exact h ks pre n found

theorem mkdir_eq {p q : Place Name} {hs : List (Hop Name)} {new : Node}
    (h : t.mkdir dir p hs new = .ok t') (found : t.walk dir p hs = some q) :
    t.node q = none ∧ t' = t.add q new := by
  simp only [mkdir, found] at h
  split_ifs at h with taken
  cases h
  exact ⟨Option.not_isSome_iff_eq_none.mp taken, rfl⟩

theorem mkdir_ok {p : Place Name} {hs : List (Hop Name)} {new : Node}
    (h : t.mkdir dir p hs new = .ok t') : ∃ q, t.node q = none ∧ t' = t.add q new := by
  cases found : t.walk dir p hs with
  | none => simp [mkdir, found] at h
  | some q => exact ⟨q, mkdir_eq h found⟩

/-- Where a path leads, there is a directory after `mkdir` if nothing else is in the way, be it
that it was made or that it was there. -/
theorem mkdir_spec {p : Place Name} {hs : List (Hop Name)} {new : Node}
    (found : t.walk dir p hs = some (p.go hs)) (clear : t.Clear dir p hs)
    (isDir : dir new = true) :
    match t.mkdir dir p hs new with
    | .ok t' => t'.Leads dir p hs
    | .error e => e = .exist ∧ t.Leads dir p hs := by
  cases there : t.node (p.go hs) with
  | some n =>
    have is : t.dirAt dir (p.go hs) = true := by
      rw [dirAt, there]
      exact clear hs List.prefix_rfl n there
    simp only [mkdir, found, there, Option.isSome_some, if_true]
    exact ⟨trivial, found, is⟩
  | none =>
    simp only [mkdir, found, there, Option.isSome_none, Bool.false_eq_true, if_false]
    have made : (t.add (p.go hs) new).dirAt dir (p.go hs) = true :=
      dirAt_iff.mpr ⟨new, node_add_self .., isDir⟩
    exact ⟨(grows_add there new).walk found, made⟩

end FileTree

end Fuxi.Lib
