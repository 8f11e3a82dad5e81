import Mathlib.Data.List.Perm.Basic
import Fuxi.Base.ConcurrentVector.RetireList.Cooled
import Fuxi.Lib.Ownership

/-!
# Retired elements are deleted exactly once

Whatever the clock says and however often addresses are used again, every node is with one thread
in `retire`, on the list, or with one thread that deletes it, and nowhere else. So no thread reads
a node that has been deleted, no element is deleted twice, and none is lost.
-/

namespace Fuxi.Base.RetireList

open Lib

variable {Tid T : Type*}

deriving instance DecidableEq for Place

/-- All calls of the class: those of `Move`, and `unsafe_gc` up to its exchange. -/
inductive Call (T : Type*)
  | move (m : Move T)
  | unsafeGc

/-- The node that a thread in `retire` has created. -/
def Phase.node? : Phase → Option Nat
  | .retireLoad node | .retireClock node _ | .retireStrong node _ _ | .retireWeak node _ _ =>
    some node
  | .idle | .gcLoad | .gcClock _ | .gcStrong _ _ | .deleteList _ => none

/-- The first node that a thread in `delete_list` has still to delete. -/
def Phase.doomed : Phase → Nat
  | .deleteList node => node
  | .idle | .retireLoad _ | .retireClock _ _ | .retireStrong _ _ _ | .retireWeak _ _ _ | .gcLoad
  | .gcClock _ | .gcStrong _ _ => 0

theorem Phase.doomed_of_node {p : Phase} {node : Nat} (has : p.node? = some node) :
    p.doomed = 0 := by
  cases p with
  | deleteList => cases has
  | _ => rfl

namespace State

section Calls

variable [DecidableEq Tid]

def unsafeGc (s : State Tid T) (t : Tid) : State Tid T :=
  { s with head := 0 }.goto t (.deleteList (getNode s.head))

def call (s : State Tid T) : Tid × Call T → Option (State Tid T)
  | (t, .move m) => s.step (t, m)
  | (t, .unsafeGc) =>
    match s.phase t with
    | .idle => some (s.unsafeGc t)
    | _ => none

end Calls

/-- The element of a node. -/
def dataAt (s : State Tid T) (a : Nat) : Option T := (s.heap a).map Node.data

/-- The elements of some nodes. -/
def contents (s : State Tid T) (live : List Nat) : List T := live.filterMap s.dataAt

end State

/-- The interleavings of the calls of any number of threads. -/
def callMachine (Tid T : Type*) [DecidableEq Tid] : Machine (State Tid T) (Tid × Call T) where
  start s := ∃ clock, s = { clock }
  step := State.call

/-- The elements that the calls of a run pass to `retire`. -/
def retiredBy (calls : List (Tid × Call T)) : List T :=
  calls.filterMap fun c =>
    match c.2 with
    | .move (.retire data _) => some data
    | .move (.pass _) | .move .gc | .move (.next _) | .unsafeGc => none

/-! ## The invariant -/

/-- The nodes at each place: those that exist have one place each, and each place knows its
nodes. -/
structure Chains (s : State Tid T) (chain : Place Tid → List Nat) (live : List Nat) : Prop where
  pending : ∀ t, chain (.pending t) = (s.phase t).node?.toList
  listed : Linked Node.next s.heap (getNode s.head) (chain .listed)
  taken : ∀ t, Linked Node.next s.heap (s.phase t).doomed (chain (.taken t))
  owned : Owned live fun π a => a ∈ chain π
  exist : ∀ a, a ∈ live ↔ s.heap a ≠ none
  nodup : live.Nodup
  small : ∀ a ∈ live, 0 < a ∧ a < 2 ^ 48

/-- What was passed to `retire` has been deleted or is still in a node. -/
def Accounts (s : State Tid T) (live : List Nat) (retired : List T) : Prop :=
  retired.Perm (s.deleted.map Deletion.data ++ s.contents live)

/-- The invariant, for the elements that have been passed to `retire`. -/
def Keeping (s : State Tid T) (retired : List T) : Prop :=
  ∃ chain live, Chains s chain live ∧ Accounts s live retired

namespace Chains

variable {s s' : State Tid T} {chain chain' : Place Tid → List Nat} {live live' : List Nat}
  {t : Tid} {node : Nat}

theorem start (clock : Nat) : Chains ({ clock } : State Tid T) (fun _ => []) [] where
  pending _ := rfl
  listed := by simp only [getNode_zero]; exact .null
  taken _ := .null
  owned := ⟨nofun, by simp⟩
  exist := by simp
  nodup := .nil
  small := nofun

/-- The node that a thread has created exists and is on no list. -/
theorem of_node (h : Chains s chain live) (has : (s.phase t).node? = some node) :
    node ∈ chain (.pending t) ∧ node ∈ live ∧ 0 < node ∧ node < 2 ^ 48 := by
  have mem : node ∈ chain (.pending t) := by rw [h.pending, has]; exact List.mem_singleton_self _
  have here := (h.owned.cover node).mpr ⟨_, mem⟩
  exact ⟨mem, here, h.small node here⟩

/-- A node is at one place only. -/
theorem ne_of_mem (h : Chains s chain live) {π ρ : Place Tid} {a b : Nat} (ha : a ∈ chain π)
    (hb : b ∈ chain ρ) (ne : π ≠ ρ) : a ≠ b := by
  rintro rfl
  exact ne (h.owned.unique ha hb)

/-- A thread in no call has no nodes, nor has one that only looks at the list. -/
theorem taken_eq_nil (h : Chains s chain live) (none : (s.phase t).doomed = 0) :
    chain (.taken t) = [] := by
  have linked := h.taken t
  rw [none] at linked
  exact linked.unique .null

/-- The heap changes at the node of a thread in `retire`, which is on no list. -/
theorem link (h : Chains s chain live) (has : (s.phase t).node? = some node) (next : Nat) :
    Chains (s.link node next) chain live where
  pending := h.pending
  listed := h.listed.frame fun b mem =>
    Function.update_of_ne (h.ne_of_mem mem (h.of_node has).1 (by simp)) _ _
  taken u := (h.taken u).frame fun b mem =>
    Function.update_of_ne (h.ne_of_mem mem (h.of_node has).1 (by simp)) _ _
  owned := h.owned
  exist a := by
    rw [h.exist, State.link]
    by_cases e : a = node
    · subst e
      simp
    · simp [e]
  nodup := h.nodup
  small := h.small

theorem link_heap (h : Chains s chain live) (has : (s.phase t).node? = some node) (next : Nat) :
    ∃ n, (s.link node next).heap node = some n ∧ n.next = next := by
  obtain ⟨n, here⟩ := Option.ne_none_iff_exists'.mp ((h.exist node).mp (h.of_node has).2.1)
  exact ⟨{ n with next }, by simp [State.link, here], rfl⟩

variable [DecidableEq Tid]

/-- A thread goes on with the nodes that it has. -/
theorem goto (h : Chains s chain live) {p : Phase} (node : p.node? = (s.phase t).node?)
    (doomed : p.doomed = (s.phase t).doomed) : Chains (s.goto t p) chain live := by
  have same : ∀ u, ((s.goto t p).phase u).node? = (s.phase u).node? ∧
      ((s.goto t p).phase u).doomed = (s.phase u).doomed := by
    intro u
    by_cases e : u = t
    · subst e
      simp [State.goto, node, doomed]
    · simp [State.goto, e]
  refine ⟨fun u => ?_, h.listed, fun u => ?_, h.owned, h.exist, h.nodup, h.small⟩
  · rw [(same u).1]
    exact h.pending u
  · rw [(same u).2]
    exact h.taken u

/-! ### The list is taken, or grows -/

/-- A thread takes the nodes of the list. -/
def taking (chain : Place Tid → List Nat) (t : Tid) : Place Tid → List Nat :=
  Function.update (Function.update chain .listed []) (.taken t) (chain .listed)

/-- A thread puts its node in front of the list. -/
def pushing (chain : Place Tid → List Nat) (t : Tid) (node : Nat) : Place Tid → List Nat :=
  Function.update (Function.update chain (.pending t) []) .listed (node :: chain .listed)

@[simp] theorem taking_pending (u : Tid) : taking chain t (.pending u) = chain (.pending u) := by
  simp [taking]

@[simp] theorem taking_listed : taking chain t .listed = [] := by simp [taking]

@[simp] theorem taking_taken (u : Tid) :
    taking chain t (.taken u) = if u = t then chain .listed else chain (.taken u) := by
  simp [taking, Function.update_apply]

@[simp] theorem pushing_pending (u : Tid) :
    pushing chain t node (.pending u) = if u = t then [] else chain (.pending u) := by
  simp [pushing, Function.update_apply]

@[simp] theorem pushing_listed : pushing chain t node .listed = node :: chain .listed := by
  simp [pushing]

@[simp] theorem pushing_taken (u : Tid) :
    pushing chain t node (.taken u) = chain (.taken u) := by
  simp [pushing]

theorem owned_taking (h : Owned live fun π a => a ∈ chain π) (nothing : chain (.taken t) = []) :
    Owned live fun π a => a ∈ taking chain t π := by
  refine h.merge (a := .listed) (b := .taken t) (by simp) (by simp [nothing]) ?_
  intro π listed taken x
  rw [taking, Function.update_of_ne taken, Function.update_of_ne listed]

theorem owned_pushing (h : Owned live fun π a => a ∈ chain π)
    (own : chain (.pending t) = [node]) : Owned live fun π a => a ∈ pushing chain t node π := by
  have mem : node ∈ chain (.pending t) := by simp [own]
  refine h.move (a := .pending t) (b := .listed) mem fun π x => ?_
  cases π with
  | pending u =>
    by_cases e : u = t
    · subst e
      simp [own]
    · simp [e]
  | listed => simp [or_comm]
  | taken u => simp

/-- A thread takes the list and leaves none. -/
theorem take (h : Chains s chain live) (node : (s.phase t).node? = none)
    (doomed : (s.phase t).doomed = 0) : Chains (s.unsafeGc t) (taking chain t) live where
  pending u := by
    rw [taking_pending, h.pending]
    by_cases e : u = t
    · subst e
      rw [node]
      simp [State.unsafeGc, State.goto, Phase.node?]
    · simp [State.unsafeGc, State.goto, e]
  listed := by
    change Linked Node.next s.heap (getNode 0) (taking chain t .listed)
    rw [getNode_zero, taking_listed]
    exact .null
  taken u := by
    rw [taking_taken]
    by_cases e : u = t
    · subst e
      simpa [State.unsafeGc, State.goto, Phase.doomed] using h.listed
    · simpa [State.unsafeGc, State.goto, e] using h.taken u
  owned := owned_taking h.owned (h.taken_eq_nil doomed)
  exist := h.exist
  nodup := h.nodup
  small := h.small

/-- A thread puts its node in front of the list. -/
theorem push (h : Chains s chain live) (has : (s.phase t).node? = some node) {n : Node T}
    (here : s.heap node = some n) (next : n.next = getNode s.head) (reading latest : Nat) :
    Chains ({ s with head := makeHead node (u16 reading), reading, latest }.goto t .idle)
      (pushing chain t node) live where
  pending u := by
    by_cases e : u = t
    · subst e
      simp [State.goto, Phase.node?]
    · simpa [State.goto, e] using h.pending u
  listed := by
    obtain ⟨-, -, pos, lt⟩ := h.of_node has
    simp only [State.goto, getNode_makeHead lt, pushing_listed]
    refine .node pos.ne' here ?_
    rw [next]
    exact h.listed
  taken u := by
    have taken := h.taken u
    by_cases e : u = t
    · subst e
      rw [Phase.doomed_of_node has] at taken
      simpa [State.goto, Phase.doomed] using taken
    · simpa [State.goto, e] using taken
  owned := owned_pushing h.owned (by rw [h.pending, has]; rfl)
  exist := h.exist
  nodup := h.nodup
  small := h.small

/-- A thread takes the list and leaves its node alone. -/
theorem replace (h : Chains s chain live) (has : (s.phase t).node? = some node) {n : Node T}
    (here : s.heap node = some n) (next : n.next = 0) (reading latest : Nat) :
    Chains ({ s with head := makeHead node (u16 reading), reading, latest }.goto t
      (.deleteList (getNode s.head))) (pushing (taking chain t) t node) live where
  pending u := by
    by_cases e : u = t
    · subst e
      simp [State.goto, Phase.node?]
    · simpa [State.goto, e] using h.pending u
  listed := by
    obtain ⟨-, -, pos, lt⟩ := h.of_node has
    simp only [State.goto, getNode_makeHead lt, pushing_listed, taking_listed]
    refine .node pos.ne' here ?_
    rw [next]
    exact .null
  taken u := by
    by_cases e : u = t
    · subst e
      simpa [State.goto, Phase.doomed] using h.listed
    · simpa [State.goto, e] using h.taken u
  owned := by
    refine owned_pushing (owned_taking h.owned (h.taken_eq_nil (Phase.doomed_of_node has))) ?_
    rw [taking_pending, h.pending, has]
    rfl
  exist := h.exist
  nodup := h.nodup
  small := h.small

/-- A node is created. -/
theorem create (h : Chains s chain live) (idle : s.phase t = .idle) {address : Nat}
    (free : s.heap address = none) (pos : 0 < address) (lt : address < 2 ^ 48) (n : Node T) :
    Chains ({ s with heap := Function.update s.heap address (some n) }.goto t (.retireLoad address))
      (Function.update chain (.pending t) [address]) (address :: live) := by
  have new : address ∉ live := fun mem => (h.exist address).mp mem free
  have frame : ∀ {π a}, a ∈ chain π →
      Function.update s.heap address (some n) a = s.heap a := by
    rintro π a mem
    refine Function.update_of_ne ?_ _ _
    rintro rfl
    exact new ((h.owned.cover _).mpr ⟨π, mem⟩)
  have none : chain (.pending t) = [] := by rw [h.pending, idle]; rfl
  refine ⟨fun u => ?_, ?_, fun u => ?_, ?_, fun a => ?_, List.nodup_cons.mpr ⟨new, h.nodup⟩, ?_⟩
  · by_cases e : u = t
    · subst e
      simp [State.goto, Phase.node?]
    · rw [Function.update_of_ne (by simpa using e)]
      simpa [State.goto, e] using h.pending u
  · rw [Function.update_of_ne (by simp)]
    exact h.listed.frame fun b mem => frame mem
  · rw [Function.update_of_ne (by simp)]
    have taken := (h.taken u).frame fun b mem => frame mem
    by_cases e : u = t
    · subst e
      rw [idle] at taken
      simpa [State.goto, Phase.doomed] using taken
    · simpa [State.goto, e] using taken
  · refine h.owned.create new (b := .pending t) (by simp [or_comm]) fun π x => ?_
    by_cases e : π = .pending t
    · subst e
      simp [none]
    · simp [e]
  · by_cases e : a = address
    · subst e
      simp [State.goto]
    · simpa [State.goto, e] using h.exist a
  · exact List.forall_mem_cons.mpr ⟨⟨pos, lt⟩, h.small⟩

/-- A thread deletes the node that it has read. -/
theorem delete (h : Chains s chain live) (deletes : s.phase t = .deleteList node)
    (ne : node ≠ 0) : ∃ n, s.heap node = some n ∧ node ∈ live ∧ ∃ chain', ∀ deleted,
      Chains ({ s with heap := Function.update s.heap node none, deleted }.goto t
        (.deleteList n.next)) chain' (live.erase node) := by
  have linked := h.taken t
  rw [deletes] at linked
  cases own : chain (.taken t) with
  | nil =>
    rw [own] at linked
    cases linked
    exact absurd rfl ne
  | cons a rest =>
    rw [own] at linked
    have acyclic := linked
    cases linked with
    | node _ here linked =>
      have first : node ∈ chain (.taken t) := by simp [own, Phase.doomed]
      have mem : node ∈ live := (h.owned.cover node).mpr ⟨_, first⟩
      have frame : ∀ {π a}, π ≠ .taken t → a ∈ chain π →
          Function.update s.heap node Option.none a = s.heap a := fun ne mem =>
        Function.update_of_ne (h.ne_of_mem mem first ne) _ _
      refine ⟨_, here, mem, Function.update chain (.taken t) rest, fun deleted =>
        ⟨fun u => ?_, ?_, fun u => ?_, ?_, fun a => ?_, h.nodup.erase node, fun a mem =>
          h.small a (List.mem_of_mem_erase mem)⟩⟩
      · rw [Function.update_of_ne (by simp), h.pending]
        by_cases e : u = t
        · subst e
          rw [deletes]
          simp [State.goto, Phase.node?]
        · simp [State.goto, e]
      · rw [Function.update_of_ne (by simp)]
        exact h.listed.frame fun b mem => frame (by simp) mem
      · by_cases e : u = t
        · subst e
          rw [Function.update_self]
          have later : Linked Node.next (Function.update s.heap node Option.none) _ rest :=
            linked.frame fun b mem =>
              Function.update_of_ne (ne_of_mem_of_not_mem mem acyclic.notMem_tail) _ _
          simpa [State.goto, Phase.doomed] using later
        · rw [Function.update_of_ne (by simpa using e)]
          have taken := (h.taken u).frame fun b mem => frame (by simpa using e) mem
          simpa [State.goto, e] using taken
      · refine h.owned.remove (z := node) (fun x => ?_) fun π x => ?_
        · rw [h.nodup.mem_erase_iff, and_comm]
        · by_cases e : π = .taken t
          · subst e
            have out := acyclic.notMem_tail
            simp only [Phase.doomed] at out own
            rw [Function.update_self, own, List.mem_cons]
            constructor
            · intro mem
              exact ⟨Or.inr mem, ne_of_mem_of_not_mem mem out⟩
            · rintro ⟨eq | mem, other⟩
              · exact absurd eq other
              · exact mem
          · rw [Function.update_of_ne e]
            exact ⟨fun mem => ⟨mem, h.ne_of_mem mem first e⟩, And.left⟩
      · rw [h.nodup.mem_erase_iff, h.exist]
        by_cases e : a = node
        · subst e
          simp [State.goto]
        · simp [State.goto, e]

end Chains

/-! ## The accounts -/

section Accounts

variable {s s' : State Tid T} {live : List Nat} {retired : List T} {t : Tid} {node : Nat}

/-- The elements stay in their nodes. -/
theorem Accounts.congr (h : Accounts s live retired) (deleted : s'.deleted = s.deleted)
    (same : ∀ a, s'.dataAt a = s.dataAt a) : Accounts s' live retired := by
  have contents : s'.contents live = s.contents live := List.filterMap_congr fun a _ => same a
  rwa [Accounts, deleted, contents]

theorem dataAt_link (next : Nat) (a : Nat) : (s.link node next).dataAt a = s.dataAt a := by
  by_cases e : a = node
  · subst e
    simp [State.dataAt, State.link, Option.map_map, Function.comp_def]
  · simp [State.dataAt, State.link, e]

/-- A new node has its element. -/
theorem Accounts.create (h : Accounts s live retired) (new : node ∉ live) (n : Node T) :
    Accounts { s with heap := Function.update s.heap node (some n) } (node :: live)
      (retired ++ [n.data]) := by
  have others : ∀ a ∈ live,
      State.dataAt { s with heap := Function.update s.heap node (some n) } a = s.dataAt a := by
    intro a mem
    have ne : a ≠ node := ne_of_mem_of_not_mem mem new
    simp [State.dataAt, ne]
  have own : State.dataAt { s with heap := Function.update s.heap node (some n) } node =
      some n.data := by
    simp [State.dataAt]
  rw [Accounts, State.contents, List.filterMap_cons_some own, List.filterMap_congr others]
  refine (h.append_right _).trans ?_
  rw [List.append_assoc]
  exact List.perm_append_comm.append_left _

/-- The element of a node that is deleted. -/
theorem Accounts.delete (h : Accounts s live retired) (nodup : live.Nodup) (mem : node ∈ live)
    {n : Node T} (here : s.heap node = some n) (time : Nat) :
    Accounts { s with
      heap := Function.update s.heap node none
      deleted := ⟨n.data, n.retired, time⟩ :: s.deleted } (live.erase node) retired := by
  set s' : State Tid T := { s with
    heap := Function.update s.heap node none
    deleted := ⟨n.data, n.retired, time⟩ :: s.deleted }
  have others : ∀ a ∈ live.erase node, s'.dataAt a = s.dataAt a := by
    intro a left
    have ne : a ≠ node := (nodup.mem_erase_iff.mp left).1
    simp [State.dataAt, s', ne]
  have own : s.dataAt node = some n.data := by simp [State.dataAt, here]
  have split : (s.contents live).Perm (n.data :: s.contents (live.erase node)) := by
    have perm := (List.perm_cons_erase mem).filterMap s.dataAt
    rwa [List.filterMap_cons_some own] at perm
  have same : s'.contents (live.erase node) = s.contents (live.erase node) :=
    List.filterMap_congr others
  rw [Accounts, same]
  exact (h.trans (split.append_left _)).trans List.perm_middle

end Accounts

/-! ## The steps -/

theorem keeping_start (clock : Nat) : Keeping ({ clock } : State Tid T) [] :=
  ⟨_, _, Chains.start clock, List.Perm.nil⟩

section Steps

variable [DecidableEq Tid] {s s' : State Tid T} {retired : List T} {t : Tid}

/-- A thread goes on with the nodes that it has. -/
theorem Keeping.goto (h : Keeping s retired) {p : Phase} (node : p.node? = (s.phase t).node?)
    (doomed : p.doomed = (s.phase t).doomed) : Keeping (s.goto t p) retired := by
  obtain ⟨chain, live, chains, accounts⟩ := h
  exact ⟨chain, live, chains.goto node doomed, accounts⟩

/-- A thread takes the list, in `gc` or in `unsafe_gc`. -/
theorem Keeping.take (h : Keeping s retired) (node : (s.phase t).node? = none)
    (doomed : (s.phase t).doomed = 0) : Keeping (s.unsafeGc t) retired := by
  obtain ⟨chain, live, chains, accounts⟩ := h
  exact ⟨_, live, chains.take node doomed, accounts⟩

theorem Keeping.gcStrong (h : Keeping s retired) {head reading : Nat}
    (at_ : s.phase t = .gcStrong head reading) : Keeping (s.gcStrong t head) retired := by
  unfold State.gcStrong
  split_ifs with same
  · subst same
    exact h.take (by rw [at_]; rfl) (by rw [at_]; rfl)
  · exact h.goto (by rw [at_]; rfl) (by rw [at_]; rfl)

theorem Keeping.retireStrong (h : Keeping s retired) {node head reading : Nat}
    (at_ : s.phase t = .retireStrong node head reading) :
    Keeping (s.retireStrong t node head reading) retired := by
  obtain ⟨chain, live, chains, accounts⟩ := h
  have has : (s.phase t).node? = some node := by rw [at_]; rfl
  have linked := chains.link has 0
  have kept : Accounts (s.link node 0) live retired := accounts.congr rfl (dataAt_link 0)
  unfold State.retireStrong
  split_ifs with same
  · subst same
    obtain ⟨n, here, next⟩ := chains.link_heap has 0
    exact ⟨_, live, linked.replace has here next reading _, kept⟩
  · have stays : (s.link node 0).phase t = .retireStrong node head reading := at_
    exact ⟨chain, live, linked.goto (by rw [stays]; rfl) (by rw [stays]; rfl), kept⟩

theorem Keeping.retireWeak (h : Keeping s retired) {node head reading : Nat} {spurious : Bool}
    (at_ : s.phase t = .retireWeak node head reading) :
    Keeping (s.retireWeak t node head reading spurious) retired := by
  obtain ⟨chain, live, chains, accounts⟩ := h
  have has : (s.phase t).node? = some node := by rw [at_]; rfl
  have linked := chains.link has (getNode head)
  have kept : Accounts (s.link node (getNode head)) live retired :=
    accounts.congr rfl (dataAt_link _)
  by_cases same : s.head = head ∧ spurious = false
  · rw [State.retireWeak, if_pos same]
    obtain ⟨rfl, -⟩ := same
    obtain ⟨n, here, next⟩ := chains.link_heap has (getNode s.head)
    exact ⟨_, live, linked.push has here next reading _, kept⟩
  · rw [State.retireWeak, if_neg same]
    have stays : (s.link node (getNode head)).phase t = .retireWeak node head reading := at_
    exact ⟨chain, live, linked.goto (by rw [stays]; rfl) (by rw [stays]; rfl), kept⟩

/-- The node that a thread has to delete exists. -/
theorem Keeping.deleteList (h : Keeping s retired) {node : Nat}
    (at_ : s.phase t = .deleteList node) :
    ∃ s', s.deleteList t node = some s' ∧ Keeping s' retired := by
  unfold State.deleteList
  split_ifs with null
  · subst null
    exact ⟨_, rfl, h.goto (by rw [at_]; rfl) (by rw [at_]; rfl)⟩
  · obtain ⟨chain, live, chains, accounts⟩ := h
    obtain ⟨n, here, mem, chain', later⟩ := chains.delete at_ null
    rw [here]
    exact ⟨_, rfl, chain', _, later _, accounts.delete chains.nodup mem here s.clock⟩

/-- A thread in a call can always go on, so that it reads no node that has been deleted. -/
theorem Keeping.next (h : Keeping s retired) (busy : s.phase t ≠ .idle) (spurious : Bool) :
    ∃ s', s.next t spurious = some s' ∧ Keeping s' retired := by
  unfold State.next
  cases at_ : s.phase t with
  | idle => exact absurd at_ busy
  | retireLoad node => exact ⟨_, rfl, h.goto (by rw [at_]; rfl) (by rw [at_]; rfl)⟩
  | retireClock node head =>
    simp only
    split_ifs
    · exact ⟨_, rfl, h.goto (by rw [at_]; rfl) (by rw [at_]; rfl)⟩
    · exact ⟨_, rfl, h.goto (by rw [at_]; rfl) (by rw [at_]; rfl)⟩
  | retireStrong node head reading => exact ⟨_, rfl, h.retireStrong at_⟩
  | retireWeak node head reading => exact ⟨_, rfl, h.retireWeak at_⟩
  | gcLoad => exact ⟨_, rfl, h.goto (by rw [at_]; rfl) (by rw [at_]; rfl)⟩
  | gcClock head =>
    simp only
    split_ifs
    · exact ⟨_, rfl, h.goto (by rw [at_]; rfl) (by rw [at_]; rfl)⟩
    · exact ⟨_, rfl, h.goto (by rw [at_]; rfl) (by rw [at_]; rfl)⟩
  | gcStrong head reading => exact ⟨_, rfl, h.gcStrong at_⟩
  | deleteList node => exact h.deleteList at_

/-- Every call and every step keeps the accounts. -/
theorem Keeping.call (h : Keeping s retired) {c : Tid × Call T} (hs : s.call c = some s') :
    Keeping s' (retired ++ retiredBy [c]) := by
  obtain ⟨t, m | _⟩ := c
  · cases m with
    | pass time =>
      cases hs
      obtain ⟨chain, live, ⟨pending, listed, taken, owned, exist, nodup, small⟩, accounts⟩ := h
      have same : retired ++ retiredBy [(t, Call.move (.pass time))] = retired := by
        simp [retiredBy]
      rw [same]
      exact ⟨chain, live, ⟨pending, listed, taken, owned, exist, nodup, small⟩, accounts⟩
    | retire data address =>
      simp only [State.call, State.step] at hs
      cases at_ : s.phase t with
      | idle =>
        simp only [at_, State.create] at hs
        split_ifs at hs with fresh
        cases hs
        obtain ⟨free, pos, lt⟩ := fresh
        obtain ⟨chain, live, chains, accounts⟩ := h
        have new : address ∉ live := fun mem => (chains.exist address).mp mem free
        exact ⟨_, _, chains.create at_ free pos lt _, accounts.create new ⟨data, 0, s.clock⟩⟩
      | _ => simp [at_] at hs
    | gc =>
      simp only [State.call, State.step] at hs
      cases at_ : s.phase t with
      | idle =>
        simp only [at_, Option.some.injEq] at hs
        subst hs
        have kept := h.goto (t := t) (p := .gcLoad) (by rw [at_]; rfl) (by rw [at_]; rfl)
        simpa [retiredBy] using kept
      | _ => simp [at_] at hs
    | next spurious =>
      have busy : s.phase t ≠ .idle := by
        intro idle
        simp [State.call, State.step, State.next, idle] at hs
      obtain ⟨s'', hs', kept⟩ := h.next busy spurious
      have same : s'' = s' := Option.some.inj (hs'.symm.trans hs)
      subst same
      simpa [retiredBy] using kept
  · simp only [State.call] at hs
    cases at_ : s.phase t with
    | idle =>
      simp only [at_, Option.some.injEq] at hs
      subst hs
      have kept := h.take (t := t) (by rw [at_]; rfl) (by rw [at_]; rfl)
      simpa [retiredBy] using kept
    | _ => simp [at_] at hs

theorem Keeping.run (h : Keeping s retired) {calls : List (Tid × Call T)}
    (ran : (callMachine Tid T).run s calls = some s') :
    Keeping s' (retired ++ retiredBy calls) := by
  induction calls generalizing s retired with
  | nil =>
    cases ran
    simpa [retiredBy] using h
  | cons c calls ih =>
    obtain ⟨u, hu, ran⟩ := Option.bind_eq_some_iff.mp ran
    have later := ih (h.call hu) ran
    rwa [List.append_assoc, retiredBy, retiredBy, ← List.filterMap_append, List.singleton_append]
      at later

end Steps

/-- After every run: a thread in a call can go on, so that nobody reads a node that has been
deleted, and the elements that were passed to `retire` are those that have been deleted and those
of the nodes that exist. When all calls are over, these are the nodes of the list. -/
theorem exactlyOnce [DecidableEq Tid] {clock : Nat} {calls : List (Tid × Call T)} {s : State Tid T}
    (ran : (callMachine Tid T).run { clock } calls = some s) :
    (∀ t spurious, s.phase t ≠ .idle → (s.next t spurious).isSome = true) ∧
      (∃ live : List Nat, live.Nodup ∧ (∀ a, a ∈ live ↔ s.heap a ≠ none) ∧
        (retiredBy calls).Perm (s.deleted.map Deletion.data ++ s.contents live)) ∧
      ((∀ t, s.phase t = .idle) → ∃ list, Linked Node.next s.heap (getNode s.head) list ∧
        (retiredBy calls).Perm (s.deleted.map Deletion.data ++ s.contents list)) := by
  have kept := (keeping_start clock).run ran
  rw [List.nil_append] at kept
  refine ⟨fun t spurious busy => ?_, ?_, fun idle => ?_⟩
  · obtain ⟨s', hs, -⟩ := kept.next busy spurious
    rw [hs]
    rfl
  · obtain ⟨chain, live, chains, accounts⟩ := kept
    exact ⟨live, chains.nodup, chains.exist, accounts⟩
  · obtain ⟨chain, live, chains, accounts⟩ := kept
    have all : live.Perm (chain .listed) := by
      refine (List.perm_ext_iff_of_nodup chains.nodup chains.listed.nodup).mpr fun a => ?_
      rw [chains.owned.cover a]
      constructor
      · rintro ⟨π, mem⟩
        cases π with
        | pending t =>
          rw [chains.pending, idle t] at mem
          cases mem
        | listed => exact mem
        | taken t =>
          rw [chains.taken_eq_nil (by rw [idle t]; rfl)] at mem
          cases mem
      · exact fun mem => ⟨.listed, mem⟩
    exact ⟨chain .listed, chains.listed, accounts.trans ((all.filterMap _).append_left _)⟩

/-- While the first thread deletes a list, the second one pushes a node at the address that the
first one has just given back; then the third one clears the list. -/
def reuseAddress : List (Nat × Call Nat) :=
  [(0, .move (.retire 1 16)), (0, .move (.next false)), (0, .move (.next false)),
    (0, .move (.next true)), (0, .move (.next false)), (0, .unsafeGc), (0, .move (.next false)),
    (1, .move (.retire 2 16)), (1, .move (.next false)), (1, .move (.next false)),
    (0, .move (.next false)), (1, .move (.next false)), (2, .unsafeGc), (2, .move (.next false)),
    (2, .move (.next false))]

theorem exactlyOnce_reuseAddress : ∃ s : State Nat Nat,
    (callMachine Nat Nat).run { clock := 0 } reuseAddress = some s ∧
      s.deleted.map Deletion.data = [2, 1] ∧
      ∃ live : List Nat, (retiredBy reuseAddress).Perm ([2, 1] ++ s.contents live) := by
  have seen : ((callMachine Nat Nat).run { clock := 0 } reuseAddress).map
      (fun s => s.deleted.map Deletion.data) = some [2, 1] := by decide +kernel
  obtain ⟨s, ran, deleted⟩ := Option.map_eq_some_iff.mp seen
  obtain ⟨-, ⟨live, -, -, accounts⟩, -⟩ := exactlyOnce ran
  exact ⟨s, ran, deleted, live, deleted ▸ accounts⟩

end Fuxi.Base.RetireList
