import Fuxi.Common.Util
import Fuxi.Lib.Machine

/-!
# The key of a domain

`XsiShm::Init` makes a directory for its options, and gets the key of the segment from `ftok`
of the directory. Any number of processes do so at the same time, among others that make nodes of
the file system, too. Nobody removes a node.
-/

namespace Fuxi.Mm.Port.XsiShm

open Common Lib

variable {Tid : Type*}

/-- `ftok`; `-1` says that it has failed. -/
def ftok (fs : FileSystem) (cwd : Place FileName) (path : List Char) (projId : BitVec 32) :
    BitVec 32 :=
  match stat fs cwd path with
  | none => -1
  | some st =>
    (st.inode.setWidth 32 &&& 0xffff) ||| ((st.device.setWidth 32 &&& 0xff) <<< 16) |||
      ((projId &&& 0xff) <<< 24)

/-- `IPC_PRIVATE`, which is not a key of a segment that other processes find. -/
def ipcPrivate : BitVec 32 := 0

/-- `path_`. -/
def pathOf (domainId nameId : Int) : List Char :=
  ("/tmp/xsi/" ++ toString domainId ++ "/" ++ toString nameId).toList

/-- What an object has done in `Init` up to the key; the result of `EnsureDirectory` is not
looked at. -/
inductive KeyPc
  | idle
  | ensureDirectory (path : List Char) (pc : EnsureDirectory)
  | keyed (path : List Char) (ret : Bool) (key : BitVec 32)

/-- The path of an `Init`. -/
def KeyPc.path : KeyPc → Option (List Char)
  | .idle => none
  | .ensureDirectory path _ | .keyed path _ _ => some path

structure KeyState (Tid : Type*) where
  fs : FileSystem
  pc : Tid → KeyPc

/-- An `Init` starts or makes its next system call, or another program makes a node in a
directory. A call that `fails` does so for a reason that has nothing to do with the tree. -/
inductive KeyMove (Tid : Type*)
  | init (t : Tid) (domainId nameId : Int)
  | step (t : Tid) (fails : Bool) (device inode : BitVec 64)
  | other (place : Place FileName) (node : FileNode)

namespace KeyState

variable [DecidableEq Tid]

def goto (s : KeyState Tid) (t : Tid) (p : KeyPc) : KeyState Tid :=
  { s with pc := Function.update s.pc t p }

/-- The path begins with a slash, so the working directory does not matter. -/
def step (s : KeyState Tid) : KeyMove Tid → Option (KeyState Tid)
  | .init t domainId nameId =>
    match s.pc t with
    | .idle => some (s.goto t (.ensureDirectory (pathOf domainId nameId) .directoryExists))
    | _ => none
  | .step t fails device inode =>
    match s.pc t with
    | .idle | .keyed _ _ _ => none
    | .ensureDirectory path (.done ret) =>
      some (s.goto t (.keyed path ret (if fails then -1 else ftok s.fs [] path 128)))
    | .ensureDirectory path pc =>
      (pc.advance s.fs [] path fails device inode).map fun (pc, fs) =>
        { s.goto t (.ensureDirectory path pc) with fs := fs }
  | .other [] _ => none
  | .other (name :: place) node =>
    if s.fs.dirAt FileNode.isDir place ∧ s.fs.node (name :: place) = none then
      some { s with fs := s.fs.add (name :: place) node }
    else none

end KeyState

/-- Any number of processes; at first nothing but directories is on the way of a path. -/
def keyMachine (Tid : Type*) [DecidableEq Tid] (path : List Char) :
    Machine (KeyState Tid) (KeyMove Tid) where
  start s := s.fs.dirAt FileNode.isDir [] = true ∧ s.fs.Clear FileNode.isDir [] (hops path) ∧
    ∀ t, s.pc t = .idle
  step := KeyState.step

/-- Other programs put nothing but directories on the way of a path, and the calls of an `Init`
with this path do not fail for other reasons. -/
def Undisturbed (path : List Char) (s : KeyState Tid) (m : KeyMove Tid) (_ : KeyState Tid) : Prop :=
  match m with
  | .init _ _ _ => True
  | .step t fails _ _ => (s.pc t).path = some path → fails = false
  | .other place node =>
    ∀ ks ∈ (hops path).inits, Place.go [] ks = place → node.isDir = true

/-! ## One key for all -/

theorem pathOf_ne_nil (domainId nameId : Int) : pathOf domainId nameId ≠ [] := by
  simp [pathOf]

/-- The key of a directory is neither the sign of a failure nor `IPC_PRIVATE`. -/
theorem ftok_ne {fs : FileSystem} {cwd : Place FileName} {path : List Char} {st : FileNode}
    (found : stat fs cwd path = some st) :
    ftok fs cwd path 128 ≠ -1 ∧ ftok fs cwd path 128 ≠ ipcPrivate := by
  simp only [ftok, found]
  generalize st.inode.setWidth 32 = inode
  generalize st.device.setWidth 32 = device
  constructor
  · intro h
    have bit := congrArg (BitVec.getLsbD · 30) h
    simp at bit
  · intro h
    have bit := congrArg (BitVec.getLsbD · 31) h
    simp [ipcPrivate] at bit

/-- What an `Init` with a path has seen to. -/
def KeyPc.Sound (path : List Char) (fs : FileSystem) : KeyPc → Prop
  | .idle => True
  | .ensureDirectory p pc => p = path → pc.Made fs [] path
  | .keyed p ret key => p = path →
      ret = true ∧ ∃ st, stat fs [] path = some st ∧ key = ftok fs [] path 128

/-- Nothing but directories is on the way, and each `Init` with the path has seen to it. -/
structure KeyInv (path : List Char) (s : KeyState Tid) : Prop where
  root : s.fs.dirAt FileNode.isDir [] = true
  clear : s.fs.Clear FileNode.isDir [] (hops path)
  sound : ∀ t, (s.pc t).Sound path s.fs

/-- Keys stay what they are when nodes are added. -/
theorem KeyPc.Sound.grows {path : List Char} {fs fs' : FileSystem} {pc : KeyPc}
    (h : pc.Sound path fs) (grows : fs.Grows fs') : pc.Sound path fs' := by
  cases pc with
  | idle => trivial
  | ensureDirectory p pc => exact fun same => (h same).grows grows
  | keyed p ret key =>
    intro same
    obtain ⟨ret, st, found, rfl⟩ := h same
    have again := stat_grows grows found
    exact ⟨ret, st, again, by simp only [ftok, found, again]⟩

variable [DecidableEq Tid] {path : List Char} {s s' : KeyState Tid}

theorem KeyInv.update (h : KeyInv path s) {fs : FileSystem} (grows : s.fs.Grows fs)
    (clear : fs.Clear FileNode.isDir [] (hops path)) {t : Tid} {pc : KeyPc}
    (sound : pc.Sound path fs) : KeyInv path { s.goto t pc with fs := fs } := by
  refine ⟨grows.dirAt h.root, clear, fun u => ?_⟩
  by_cases same : u = t
  · subst same
    simpa [KeyState.goto] using sound
  · simpa [KeyState.goto, same] using (h.sound u).grows grows

theorem KeyInv.step (some_char : path ≠ []) (h : KeyInv path s) {m : KeyMove Tid}
    (hs : s.step m = some s') (side : Undisturbed path s m s') : KeyInv path s' := by
  cases m with
  | init t domainId nameId =>
    simp only [KeyState.step] at hs
    split at hs
    · cases hs
      exact h.update (.refl _) h.clear fun _ => trivial
    · cases hs
  | step t fails device inode =>
    have own := h.sound t
    simp only [KeyState.step] at hs
    split at hs
    · cases hs
    · cases hs
    · rename_i p ret here
      cases hs
      rw [here] at own
      refine h.update (.refl _) h.clear fun same => ?_
      subst same
      have works : fails = false := side (by rw [here]; rfl)
      obtain ⟨ret, leads⟩ := own rfl
      obtain ⟨st, found⟩ := leads.stat
      exact ⟨ret, st, by rwa [stat, if_neg some_char], by simp [works]⟩
    · rename_i p pc _ here
      obtain ⟨⟨pc', fs⟩, adv, rfl⟩ := Option.map_eq_some_iff.mp hs
      rw [here] at own
      have grows : s.fs.Grows fs := by
        rcases EnsureDirectory.advance_adds adv with rfl | ⟨q, free, rfl⟩
        · exact .refl _
        · exact FileTree.grows_add free _
      have clear : fs.Clear FileNode.isDir [] (hops path) := by
        rcases EnsureDirectory.advance_adds adv with rfl | ⟨q, free, rfl⟩
        · exact h.clear
        · exact h.clear.add fun _ => rfl
      refine h.update grows clear fun same => ?_
      subst same
      have works : fails = false := side (by rw [here]; rfl)
      rw [works] at adv
      exact (own rfl).advance some_char (by simpa using h.root) (by simpa using h.clear) adv
  | other place node =>
    cases place with
    | nil => cases hs
    | cons name place =>
      obtain ⟨⟨-, free⟩, hs⟩ := Option.ite_none_right_eq_some.mp hs
      cases hs
      have grows := FileTree.grows_add free node
      refine ⟨grows.dirAt h.root, h.clear.add ?_, fun u => (h.sound u).grows grows⟩
      rintro ⟨ks, pre, same⟩
      exact side ks ((List.mem_inits ks _).mpr pre) same

/-- For all objects with the same options, `EnsureDirectory` returns true, and they get one key,
which is that of their directory. -/
def OneKey (s : KeyState Tid) (path : List Char) : Prop :=
  ∀ t ret key, s.pc t = .keyed path ret key →
    ret = true ∧ key ≠ -1 ∧ key ≠ ipcPrivate ∧ key = ftok s.fs [] path 128

/-- The key is a function of the options in every run that is not disturbed on their path. -/
theorem keysAgree {domainId nameId : Int}
    (reach : (keyMachine Tid (pathOf domainId nameId)).Reach
      (Undisturbed (pathOf domainId nameId)) s) :
    OneKey s (pathOf domainId nameId) := by
  have inv : KeyInv (pathOf domainId nameId) s := by
    refine reach.inv (fun s start => ?_) fun s m t inv hs side =>
      inv.step (pathOf_ne_nil domainId nameId) hs side
    obtain ⟨root, clear, idle⟩ := start
    exact ⟨root, clear, fun t => by rw [idle]; trivial⟩
  intro t ret key here
  have own := inv.sound t
  rw [here] at own
  obtain ⟨ret, st, found, rfl⟩ := own rfl
  exact ⟨ret, (ftok_ne found).1, (ftok_ne found).2, rfl⟩

instance (path : List Char) (s s' : KeyState Tid) :
    (m : KeyMove Tid) → Decidable (Undisturbed path s m s')
  | .init _ _ _ => .isTrue trivial
  | .step t fails _ _ => inferInstanceAs (Decidable ((s.pc t).path = some path → fails = false))
  | .other _ _ => inferInstanceAs (Decidable (∀ ks ∈ (hops path).inits, _ → _))

/-- A file system with `/` and `/tmp`. -/
def rootAndTmp : FileSystem :=
  ((⟨fun _ => none⟩ : FileSystem).add [] ⟨0, 1, .directory⟩).add [['t', 'm', 'p']]
    ⟨0, 2, .directory⟩

/-- Two objects with the same options in turn, one of which makes the first directory, the other
one the last; a third program makes the one in between. -/
def race : List (KeyMove Nat) :=
  let call (t : Nat) (inode : BitVec 64) : KeyMove Nat := .step t false 5 inode
  [.init 0 3 0, .init 1 3 0, call 0 0, call 1 0, call 0 0, call 1 0, call 0 10, call 1 11,
    .other [['3'], ['x', 's', 'i'], ['t', 'm', 'p']] ⟨5, 12, .directory⟩, call 0 13, call 1 14,
    call 1 15, call 0 16, call 0 0, call 1 0]

theorem keysAgree_race : ∃ s, (keyMachine Nat (pathOf 3 0)).run ⟨rootAndTmp, fun _ => .idle⟩ race =
      some s ∧ OneKey s (pathOf 3 0) ∧ ftok s.fs [] (pathOf 3 0) 128 = 0x8005000F := by
  have clear : rootAndTmp.Clear FileNode.isDir [] (hops (pathOf 3 0)) := by
    refine FileTree.Clear.add (FileTree.Clear.add ?_ fun _ => rfl) fun _ => rfl
    exact fun _ _ _ found => nomatch found
  obtain ⟨s, run, reach, seen⟩ := Machine.Reach.of_along_seen
    (.start (M := keyMachine Nat (pathOf 3 0)) ⟨by decide, clear, fun _ => rfl⟩)
    (show (keyMachine Nat (pathOf 3 0)).Along (Undisturbed (pathOf 3 0))
      ⟨rootAndTmp, fun _ => .idle⟩ race by decide +kernel)
    (show ((keyMachine Nat (pathOf 3 0)).run ⟨rootAndTmp, fun _ => .idle⟩ race).map
      (fun s => ftok s.fs [] (pathOf 3 0) 128) = some 0x8005000F by decide +kernel)
  exact ⟨s, run, keysAgree reach, seen⟩

end Fuxi.Mm.Port.XsiShm
