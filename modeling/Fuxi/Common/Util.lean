import Mathlib.Data.BitVec
import Fuxi.Lib.FileTree

/-!
# `Util`: directories

`EnsureDirectory` makes the directories of a path, from the first one to the last. Other processes
may do the same at the same time, so that a directory may be there already when it is to be made.
-/

namespace Fuxi.Common

open Lib

/-- The types of files. -/
inductive FileType
  | socket
  | link
  | regular
  | block
  | directory
  | character
  | fifo
  deriving DecidableEq

/-- What `S_IFMT` selects in a `st_mode`. -/
def FileType.mode : FileType → BitVec 16
  | .socket => 0xC000
  | .link => 0xA000
  | .regular => 0x8000
  | .block => 0x6000
  | .directory => 0x4000
  | .character => 0x2000
  | .fifo => 0x1000

/-- A node of the file system. -/
structure FileNode where
  device : BitVec 64
  inode : BitVec 64
  type : FileType
  deriving DecidableEq

def FileNode.isDir (n : FileNode) : Bool := n.type = .directory

abbrev FileName := List Char

abbrev FileSystem := FileTree FileName FileNode

/-! ## Paths -/

/-- What a name in a path means. -/
def toHop (name : FileName) : Hop FileName :=
  if name = ['.'] then .self else if name = ['.', '.'] then .parent else .child name

/-- The components of a path; slashes that follow each other count as one. -/
def hops (path : List Char) : List (Hop FileName) :=
  ((path.splitOn '/').filter (· ≠ [])).map toHop

/-- Where a path starts; `cwd` is the working directory. -/
def startOf (cwd : Place FileName) (path : List Char) : Place FileName :=
  if path.head? = some '/' then [] else cwd

@[simp] theorem startOf_root (path : List Char) : startOf [] path = [] := ite_self _

/-- `stat`. -/
def stat (fs : FileSystem) (cwd : Place FileName) (path : List Char) : Option FileNode :=
  if path = [] then none else fs.stat FileNode.isDir (startOf cwd path) (hops path)

/-- What has been found is found again when nodes have been added. -/
theorem stat_grows {fs fs' : FileSystem} (grows : fs.Grows fs') {cwd : Place FileName}
    {path : List Char} {info : FileNode} (found : stat fs cwd path = some info) :
    stat fs' cwd path = some info := by
  rw [stat] at found ⊢
  split_ifs at found ⊢
  exact grows.stat found

/-- `mkdir`; the new node is a directory. -/
def mkdir (fs : FileSystem) (cwd : Place FileName) (path : List Char) (device inode : BitVec 64) :
    Except Errno FileSystem :=
  if path = [] then .error .noent
  else fs.mkdir FileNode.isDir (startOf cwd path) (hops path) ⟨device, inode, .directory⟩

/-- `S_IFDIR`. -/
def sIfdir : BitVec 16 := 0x4000

/-- `DirectoryExists`. -/
def directoryExists (fs : FileSystem) (cwd : Place FileName) (path : List Char) : Bool :=
  match stat fs cwd path with
  | none => false
  | some info => info.type.mode &&& sIfdir ≠ 0

/-- The paths that are given to `mkdir` from an index on: what comes before each slash, but not
before the first character, and at last the whole path. -/
def cuts (before : List Char) : List Char → List (List Char)
  | [] => [before]
  | c :: after =>
    if c = '/' ∧ before ≠ [] then before :: cuts (before ++ [c]) after
    else cuts (before ++ [c]) after

/-- What is left of `EnsureDirectory`. -/
inductive EnsureDirectory
  | directoryExists
  | mkdir (paths : List (List Char))
  | done (ret : Bool)
  deriving DecidableEq

namespace EnsureDirectory

/-- The loop goes on with the next path. -/
def resume : List (List Char) → EnsureDirectory
  | [] => .done true
  | paths => .mkdir paths

/-- The next system call of `EnsureDirectory`; `fails` says that it fails for a reason that has
nothing to do with the tree, and a new directory gets the number `inode`. -/
def advance (fs : FileSystem) (cwd : Place FileName) (path : List Char) (fails : Bool)
    (device inode : BitVec 64) : EnsureDirectory → Option (EnsureDirectory × FileSystem)
  | .directoryExists =>
    if Common.directoryExists fs cwd path ∧ fails = false then some (.done true, fs)
    else some (.mkdir (cuts [] path), fs)
  | .mkdir (p :: paths) =>
    match if fails then .error .other else Common.mkdir fs cwd p device inode with
    | .ok fs' => some (resume paths, fs')
    | .error e => some (if e = .exist then resume paths else .done false, fs)
  | .mkdir [] | .done _ => none

end EnsureDirectory

/-! ## What the loop has made -/

theorem hops_append_slash (x y : List Char) : hops (x ++ '/' :: y) = hops x ++ hops y := by
  simp [hops, List.splitOn_append_cons_self]

theorem hops_name {name : FileName} (h : '/' ∉ name) :
    hops name = if name = [] then [] else [toHop name] := by
  rw [hops, List.splitOn_eq_singleton h]
  split_ifs with empty <;> simp [empty]

/-- Each path leads one hop further at most, the first one than `hs`. -/
def Climbs (hs : List (Hop FileName)) : List (List Char) → Prop
  | [] => True
  | p :: paths => (hops p = hs ∨ ∃ h, hops p = hs ++ [h]) ∧ Climbs (hops p) paths

/-- A name after the last slash is one hop, or none. -/
theorem hops_step {x name : List Char} {hs : List (Hop FileName)} (h : '/' ∉ name)
    (start : ∀ y, hops (x ++ y) = hs ++ hops y) :
    hops (x ++ name) = hs ∨ ∃ h, hops (x ++ name) = hs ++ [h] := by
  rw [start, hops_name h]
  split_ifs
  · exact Or.inl (List.append_nil hs)
  · exact Or.inr ⟨_, rfl⟩

/-- The paths climb from what comes before the last slash. -/
theorem climbs_cuts (after : List Char) {x name : List Char} {hs : List (Hop FileName)}
    (h : '/' ∉ name) (start : ∀ y, hops (x ++ y) = hs ++ hops y) :
    Climbs hs (cuts (x ++ name) after) := by
  induction after generalizing x name hs with
  | nil => exact ⟨hops_step h start, trivial⟩
  | cons c after ih =>
    by_cases slash : c = '/'
    · subst slash
      have next : Climbs (hops (x ++ name)) (cuts (x ++ name ++ ['/'] ++ []) after) :=
        ih List.not_mem_nil fun y => by
          rw [List.append_assoc _ _ y, List.singleton_append, hops_append_slash]
      rw [List.append_nil] at next
      by_cases first : x ++ name = []
      · obtain ⟨rfl, rfl⟩ := List.append_eq_nil_iff.mp first
        have none : hs = [] := (List.append_nil hs).symm.trans (start []).symm
        have empty : hops [] = [] := rfl
        simpa [cuts, none, empty] using next
      · rw [cuts, if_pos ⟨rfl, first⟩]
        exact ⟨hops_step h start, next⟩
    · rw [cuts, if_neg fun cut => slash cut.1, List.append_assoc]
      exact ih (by simp [h, Ne.symm slash]) start

/-- All paths start where the whole one does. -/
theorem startOf_of_mem_cuts {cwd : Place FileName} {before after p : List Char}
    (mem : p ∈ cuts before after) : startOf cwd p = startOf cwd (before ++ after) := by
  induction after generalizing before with
  | nil => rw [List.mem_singleton.mp mem, List.append_nil]
  | cons c after ih =>
    rw [← List.singleton_append, ← List.append_assoc]
    by_cases cut : c = '/' ∧ before ≠ []
    · rw [cuts, if_pos cut] at mem
      rcases List.mem_cons.mp mem with rfl | mem
      · obtain ⟨d, rest, rfl⟩ := List.exists_cons_of_ne_nil cut.2
        rfl
      · exact ih mem
    · rw [cuts, if_neg cut] at mem
      exact ih mem

/-- No path is empty. -/
theorem ne_nil_of_mem_cuts {before after p : List Char} (mem : p ∈ cuts before after)
    (some_char : before ++ after ≠ []) : p ≠ [] := by
  induction after generalizing before with
  | nil => rwa [List.mem_singleton.mp mem, ← List.append_nil before]
  | cons c after ih =>
    rw [← List.singleton_append, ← List.append_assoc] at some_char
    by_cases cut : c = '/' ∧ before ≠ []
    · rw [cuts, if_pos cut] at mem
      rcases List.mem_cons.mp mem with rfl | mem
      · exact cut.2
      · exact ih mem some_char
    · rw [cuts, if_neg cut] at mem
      exact ih mem some_char

/-- The last path is the whole one. -/
theorem getLast_cuts (before after : List Char) :
    (cuts before after).getLast? = some (before ++ after) := by
  induction after generalizing before with
  | nil => simp [cuts]
  | cons c after ih =>
    have rest := ih (before ++ [c])
    rw [List.append_assoc, List.singleton_append] at rest
    rw [cuts]
    split_ifs
    · rw [List.getLast?_cons, rest]
      rfl
    · exact rest

/-- All paths lead along the way of the last one. -/
theorem Climbs.along {hs : List (Hop FileName)} {p path : List Char} {paths : List (List Char)}
    (h : Climbs hs (p :: paths)) (last : (p :: paths).getLast? = some path) :
    hops p <+: hops path := by
  induction paths generalizing hs p with
  | nil =>
    cases last
    exact List.prefix_rfl
  | cons q paths ih =>
    have further : hops p <+: hops q := by
      rcases h.2.1 with same | ⟨h, more⟩
      · rw [same]
      · rw [more]
        exact List.prefix_append ..
    exact further.trans (ih h.2 last)

namespace EnsureDirectory

variable {fs fs' : FileSystem} {cwd : Place FileName} {path : List Char} {fails : Bool}
  {device inode : BitVec 64} {pc pc' : EnsureDirectory}

/-- A system call adds a directory, or nothing. -/
theorem advance_adds (h : pc.advance fs cwd path fails device inode = some (pc', fs')) :
    fs' = fs ∨ ∃ q, fs.node q = none ∧ fs' = fs.add q ⟨device, inode, .directory⟩ := by
  cases pc with
  | directoryExists =>
    simp only [advance] at h
    split_ifs at h <;> cases h <;> exact Or.inl rfl
  | mkdir paths =>
    cases paths with
    | nil => cases h
    | cons p paths =>
      simp only [advance] at h
      split at h
      · rename_i made call
        cases h
        split_ifs at call
        rw [Common.mkdir] at call
        split_ifs at call
        exact Or.inr (FileTree.mkdir_ok call)
      · cases h
        exact Or.inl rfl
  | done ret => cases h

/-- What the loop has seen to: the directories of a part of the path are there, and the next paths
climb from it. -/
def Made (fs : FileSystem) (cwd : Place FileName) (path : List Char) : EnsureDirectory → Prop
  | .directoryExists => True
  | .mkdir paths => ∃ hs, fs.Leads FileNode.isDir (startOf cwd path) hs ∧ Climbs hs paths ∧
      (∀ p ∈ paths, p ≠ [] ∧ startOf cwd p = startOf cwd path) ∧ paths.getLast? = some path
  | .done ret => ret = true ∧ fs.Leads FileNode.isDir (startOf cwd path) (hops path)

theorem Made.grows (h : pc.Made fs cwd path) (grows : fs.Grows fs') : pc.Made fs' cwd path := by
  cases pc with
  | directoryExists => trivial
  | mkdir paths =>
    obtain ⟨hs, leads, rest⟩ := h
    exact ⟨hs, grows.leads leads, rest⟩
  | done ret => exact ⟨h.1, grows.leads h.2⟩

theorem leads_of_directoryExists
    (clear : fs.Clear FileNode.isDir (startOf cwd path) (hops path))
    (there : Common.directoryExists fs cwd path = true) :
    fs.Leads FileNode.isDir (startOf cwd path) (hops path) := by
  unfold Common.directoryExists at there
  split at there
  · cases there
  · rename_i info found
    rw [Common.stat] at found
    split_ifs at found
    obtain ⟨q, walk, node⟩ := Option.bind_eq_some_iff.mp found
    obtain rfl := FileTree.walk_eq_go walk
    exact ⟨walk, FileTree.dirAt_iff.mpr ⟨info, node, clear _ List.prefix_rfl info node⟩⟩

/-- If nothing is in the way, then no call makes the loop give up. -/
theorem Made.advance (h : pc.Made fs cwd path) (some_char : path ≠ [])
    (start : fs.dirAt FileNode.isDir (startOf cwd path) = true)
    (clear : fs.Clear FileNode.isDir (startOf cwd path) (hops path))
    (adv : pc.advance fs cwd path false device inode = some (pc', fs')) :
    pc'.Made fs' cwd path := by
  cases pc with
  | directoryExists =>
    simp only [EnsureDirectory.advance] at adv
    split_ifs at adv with there
    · cases adv
      exact ⟨rfl, leads_of_directoryExists clear there.1⟩
    · cases adv
      have climbs : Climbs [] (cuts ([] ++ []) path) :=
        climbs_cuts path List.not_mem_nil fun y => rfl
      exact ⟨[], FileTree.leads_nil start, climbs,
        fun p mem => ⟨ne_nil_of_mem_cuts mem some_char, startOf_of_mem_cuts mem⟩,
        getLast_cuts [] path⟩
  | mkdir paths =>
    obtain ⟨hs, leads, climbs, same, last⟩ := h
    cases paths with
    | nil => cases last
    | cons p paths =>
      have all := same p List.mem_cons_self
      have found : fs.walk FileNode.isDir (startOf cwd path) (hops p) =
          some ((startOf cwd path).go (hops p)) := by
        rcases climbs.1 with here | ⟨h, next⟩
        · rw [here]
          exact leads.1
        · rw [next]
          exact leads.walk_append h
      have made := FileTree.mkdir_spec found (clear.mono (climbs.along last))
        (show FileNode.isDir ⟨device, inode, .directory⟩ = true from rfl)
      simp only [EnsureDirectory.advance, Common.mkdir, all.1, all.2, Bool.false_eq_true, if_false]
        at adv
      have next {fs' : FileSystem}
          (leads : fs'.Leads FileNode.isDir (startOf cwd path) (hops p)) :
          (resume paths).Made fs' cwd path := by
        cases paths with
        | nil =>
          cases last
          exact ⟨rfl, leads⟩
        | cons q paths =>
          exact ⟨hops p, leads, climbs.2, fun r mem => same r (List.mem_cons_of_mem p mem), last⟩
      split at adv
      · rename_i fs₁ call
        cases adv
        rw [call] at made
        exact next made
      · rename_i e call
        rw [call] at made
        obtain ⟨rfl, leads⟩ := made
        cases adv
        exact next leads
  | done ret => cases adv

end EnsureDirectory

end Fuxi.Common
