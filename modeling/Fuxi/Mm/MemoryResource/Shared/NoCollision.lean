import Mathlib.Data.List.Perm.Basic
import Fuxi.Mm.MemoryResource.Shared

/-!
# Allocations of different threads do not collide

The pages and blocks that the threads have taken lie apart, since one page allocator and one
upstream have handed them out. So what one thread has been given overlaps neither what any thread
has been given nor the arrays that any thread keeps.
-/

namespace Fuxi.Mm

open Base Lib
open ExclusiveMonotonicBufferResource

/-- A shared resource, and the regions that each thread has been given since the last release
that has visited its resource. -/
structure SharedRegions where
  run : SharedRun
  returned : Nat → List Returned

namespace SharedRegions

def initial (pageSize : Nat) : SharedRegions := ⟨.initial pageSize, fun _ => []⟩

/-- What a call hands out. -/
def given (s : SharedRegions) : SharedMove → Nat → List Returned
  | .allocate index bytes alignment answers =>
    let served := (s.run.shared.resources.element index).allocate bytes alignment answers
    Function.update s.returned index (⟨⟨served.1, bytes⟩, alignment⟩ :: s.returned index)
  | .threadId | .registerDestructor _ _ _ => s.returned
  | .release => fun i =>
    if i < s.run.shared.resources.visited (u16 s.run.threadIds) then [] else s.returned i

def step (s : SharedRegions) (m : SharedMove) : Option SharedRegions :=
  (s.run.step m).map fun run => ⟨run, s.given m⟩

/-- The resource of a thread, with what it has taken and handed out. -/
def slot (s : SharedRegions) (index : Nat) : ResourceRun :=
  { s.run.slot index with returned := s.returned index }

/-- The page allocator and the upstream keep their promise for what all threads have taken, and
the calls are in range and keep clear of the slips. -/
def proper (pageSize : Nat) (s : SharedRegions) (m : SharedMove) (s' : SharedRegions) : Prop :=
  Granted pageSize s'.run.pages s'.run.blocks ∧
    match m with
    | .allocate index bytes alignment _ => ResourceRun.InRange bytes alignment ∧
      Sound (s.slot index).resource bytes alignment
    | .registerDestructor index task answers =>
      ResourceRun.SoundCall (s.slot index).resource (.registerDestructor task answers)
    | .threadId | .release => True

/-- The regions that a thread has been given are aligned, lie in its pages and blocks, and overlap
neither what any thread has been given nor the arrays that any thread keeps. -/
structure Apart (s : SharedRegions) : Prop where
  own : ∀ i < s.run.threadIds, ResourceRun.NoCollision (s.slot i)
  others : ∀ i < s.run.threadIds, ∀ j < s.run.threadIds, i ≠ j → ∀ a ∈ s.returned i,
    (∀ b ∈ s.returned j, a.region.Apart b.region) ∧
      ∀ r ∈ (s.slot j).resource.records, a.region.Apart r

/-- The runs of a new resource with pages of `pageSize` bytes, with any number of threads. -/
def machine (pageSize : Nat) : Machine SharedRegions SharedMove where
  start s := s = .initial pageSize
  step := step

variable {s s' : SharedRegions} {pageSize : Nat}

/-! ## The memory of the threads -/

/-- The memory that a thread has taken. -/
def memoryOf (pageSize : Nat) (s : SharedRegions) (i : Nat) : List Region :=
  memory pageSize (s.slot i).pages (s.slot i).blocks

/-- The memory that all threads have taken, thread by thread. -/
theorem memory_perm (pageSize : Nat) (s : SharedRegions) :
    (memory pageSize s.run.pages s.run.blocks).Perm
      ((List.range s.run.threadIds).flatMap (s.memoryOf pageSize)) := by
  rw [memory, SharedRun.pages, SharedRun.blocks, List.map_flatMap, List.map_flatMap]
  exact List.flatMap_append_perm _ _ _

/-- What all threads have taken lies apart exactly if it does thread by thread. -/
theorem apart_memory (granted : Granted pageSize s.run.pages s.run.blocks) :
    (∀ i < s.run.threadIds, (s.memoryOf pageSize i).Pairwise Region.Apart) ∧
      ∀ i < s.run.threadIds, ∀ j < s.run.threadIds, i ≠ j → ∀ o ∈ s.memoryOf pageSize i,
        ∀ o' ∈ s.memoryOf pageSize j, o.Apart o' := by
  have apart := ((s.memory_perm pageSize).pairwise_iff Region.Apart.symm).mp granted.apart
  obtain ⟨each, across⟩ := List.pairwise_flatMap.mp apart
  have pairs : ∀ i j, i < j → j < s.run.threadIds → ∀ o ∈ s.memoryOf pageSize i,
      ∀ o' ∈ s.memoryOf pageSize j, o.Apart o' := by
    intro i j lt few
    have := List.pairwise_iff_getElem.mp across i j (by simp; omega) (by simpa using few) lt
    simpa using this
  refine ⟨fun i few => each i (List.mem_range.mpr few), fun i hi j hj ne o ho o' ho' => ?_⟩
  obtain lt | gt := Nat.lt_or_gt_of_ne ne
  · exact pairs i j lt hj o ho o' ho'
  · exact (pairs j i gt hi o' ho' o ho).symm

/-- What is promised for all threads is promised for one of them. -/
theorem granted_slot (granted : Granted pageSize s.run.pages s.run.blocks) {i : Nat}
    (few : i < s.run.threadIds) : Granted pageSize (s.slot i).pages (s.slot i).blocks := by
  have mem := List.mem_range.mpr few
  have pages : ∀ p ∈ (s.slot i).pages, p ∈ s.run.pages := fun p own =>
    List.mem_flatMap.mpr ⟨i, mem, own⟩
  have blocks : ∀ b ∈ (s.slot i).blocks, b ∈ s.run.blocks := fun b own =>
    List.mem_flatMap.mpr ⟨i, mem, own⟩
  exact ⟨(apart_memory granted).1 i few, fun p own => granted.pages_pos p (pages p own),
    fun p own => granted.pages_dvd p (pages p own),
    fun b own => granted.blocks_dvd b (blocks b own)⟩

/-- Who has taken nothing is promised nothing. -/
theorem granted_nil (pageSize : Nat) : Granted pageSize [] [] :=
  ⟨.nil, nofun, nofun, nofun⟩

/-! ## The invariant -/

structure Inv (pageSize : Nat) (s : SharedRegions) : Prop where
  slots : ∀ i, ResourceRun.Inv pageSize (s.slot i)
  granted : Granted pageSize s.run.pages s.run.blocks

/-- What is packed in the memory of different threads does not overlap. -/
theorem Inv.apart (h : Inv pageSize s) : Apart s := by
  have inside : ∀ i, ∀ u ∈ (s.slot i).resource.records ++ (s.returned i).map Returned.region,
      ∃ o ∈ s.memoryOf pageSize i, u.Inside o := by
    intro i u mem
    have slot := h.slots i
    obtain ⟨o, ho, hu⟩ := slot.tidy.packed.inside u mem
    rw [slot.size, ← slot.pages, ← slot.blocks] at ho
    exact ⟨o, ho, hu⟩
  refine ⟨fun i _ => (h.slots i).noCollision, fun i hi j hj ne a ha => ?_⟩
  obtain ⟨o, ho, ao⟩ := inside i _ (List.mem_append_right _ (List.mem_map_of_mem ha))
  have away := (apart_memory h.granted).2 i hi j hj ne o ho
  constructor
  · intro b hb
    obtain ⟨o', ho', bo⟩ := inside j _ (List.mem_append_right _ (List.mem_map_of_mem hb))
    exact (away o' ho').mono ao bo
  · intro r hr
    obtain ⟨o', ho', ro⟩ := inside j r (List.mem_append_left _ hr)
    exact (away o' ho').mono ao ro

/-- One thread calls, with its own resource. -/
theorem Inv.change (h : Inv pageSize s) {index : Nat} {call : ResourceCall}
    (granted : Granted pageSize s'.run.pages s'.run.blocks) (lt : index < s'.run.threadIds)
    (own : s'.slot index = (s.slot index).next call)
    (same : ∀ i, i ≠ index → s'.slot i = s.slot i)
    (ok : Granted pageSize (s'.slot index).pages (s'.slot index).blocks →
      ResourceRun.proper (s.slot index) call (s'.slot index)) : Inv pageSize s' := by
  refine ⟨fun i => ?_, granted⟩
  by_cases e : i = index
  · subst e
    have proper := ok (granted_slot granted lt)
    rw [own] at proper ⊢
    exact (h.slots i).next proper
  · rw [same i e]
    exact h.slots i

/-- The resource of a thread after it has called. -/
theorem slot_setLocal (run : SharedRun) (returned : Nat → List Returned) {index : Nat}
    {f : ExclusiveMonotonicBufferResource → ExclusiveMonotonicBufferResource}
    (resources : run.shared.resources = s.run.shared.resources.setLocal index f) (i : Nat) :
    slot ⟨run, returned⟩ i =
      let r := if i = index then f (s.slot index).resource else (s.slot i).resource
      { resource := r, pages := r.pages, blocks := r.blocks, returned := returned i } := by
  have element : run.shared.resources.element i =
      if i = index then f (s.slot index).resource else (s.slot i).resource := by
    rw [resources]
    by_cases e : i = index
    · subst e
      rw [if_pos rfl]
      exact Function.update_self ..
    · rw [if_neg e]
      exact Function.update_of_ne e ..
  simp only [slot, SharedRun.slot, element]

theorem Inv.allocate (h : Inv pageSize s) {index bytes alignment : Nat} {answers : Answers}
    {run : SharedRun} (lt : index < run.threadIds)
    (resources : run.shared.resources = s.run.shared.resources.setLocal index fun r =>
      (r.allocate bytes alignment answers).2.resource)
    (granted : Granted pageSize run.pages run.blocks)
    (range : ResourceRun.InRange bytes alignment)
    (sound : Sound (s.slot index).resource bytes alignment) :
    Inv pageSize ⟨run, s.given (.allocate index bytes alignment answers)⟩ := by
  have slots := slot_setLocal run (s.given (.allocate index bytes alignment answers)) resources
  have takes := (s.slot index).resource.allocate_takes bytes alignment answers
  have own : slot ⟨run, s.given (.allocate index bytes alignment answers)⟩ index =
      (s.slot index).next (.allocate bytes alignment answers) := by
    rw [slots]
    simp only [if_true, takes.pages, takes.blocks, ResourceRun.next, given, Function.update_self]
    rw [(h.slots index).pages, (h.slots index).blocks]
    rfl
  refine h.change granted lt own (fun i ne => ?_) fun promised => ⟨⟨?_, range⟩, sound⟩
  · rw [slots]
    simp only [if_neg ne, given, Function.update_of_ne ne]
    rfl
  · have size : (slot ⟨run, s.given (.allocate index bytes alignment answers)⟩ index).resource.pageSize
        = pageSize := by
      rw [own]
      exact takes.pageSize.trans (h.slots index).size
    rwa [size]

theorem Inv.registerDestructor (h : Inv pageSize s) {index : Nat} {task : DestroyTask}
    {answers : Answers} {run : SharedRun} (lt : index < run.threadIds)
    (resources : run.shared.resources = s.run.shared.resources.setLocal index fun r =>
      (r.registerDestructor task answers).resource)
    (granted : Granted pageSize run.pages run.blocks)
    (sound : ResourceRun.SoundCall (s.slot index).resource (.registerDestructor task answers)) :
    Inv pageSize ⟨run, s.returned⟩ := by
  have slots := slot_setLocal run s.returned resources
  have takes := (s.slot index).resource.registerDestructor_takes task answers
  have own : slot ⟨run, s.returned⟩ index =
      (s.slot index).next (.registerDestructor task answers) := by
    rw [slots]
    simp only [if_true, takes.pages, takes.blocks, ResourceRun.next]
    rw [(h.slots index).pages, (h.slots index).blocks]
    rfl
  refine h.change granted lt own (fun i ne => ?_) fun promised => ⟨⟨?_, trivial⟩, sound⟩
  · rw [slots]
    simp only [if_neg ne]
    rfl
  · have size : (slot ⟨run, s.returned⟩ index).resource.pageSize = pageSize := by
      rw [own]
      exact takes.pageSize.trans (h.slots index).size
    rwa [size]

/-- A release gives back what the resources that it visits have taken. -/
theorem Inv.release (h : Inv pageSize s) {run : SharedRun}
    (shared : run.shared = (s.run.shared.release (u16 s.run.threadIds)).2)
    (granted : Granted pageSize run.pages run.blocks) :
    Inv pageSize ⟨run, s.given .release⟩ := by
  refine ⟨fun i => ?_, granted⟩
  have element := SharedRun.release_element s.run.shared (u16 s.run.threadIds) i
  by_cases visited : i < s.run.shared.resources.visited (u16 s.run.threadIds)
  · rw [if_pos visited] at element
    have released := ResourceRun.next_release (h.slots i).pages (h.slots i).blocks
    have own : slot ⟨run, s.given .release⟩ i = (s.slot i).next .release := by
      rw [released]
      simp only [slot, SharedRun.slot, shared, element, given, if_pos visited]
      rfl
    rw [own]
    refine (h.slots i).next ⟨⟨?_, trivial⟩, trivial⟩
    rw [released]
    exact granted_nil _
  · rw [if_neg visited] at element
    have own : slot ⟨run, s.given .release⟩ i = s.slot i := by
      simp only [slot, SharedRun.slot, shared, element, given, if_neg visited]
    rw [own]
    exact h.slots i

theorem Inv.step (h : Inv pageSize s) {m : SharedMove} (hs : s.step m = some s')
    (ok : proper pageSize s m s') : Inv pageSize s' := by
  obtain ⟨run, hr, rfl⟩ := Option.map_eq_some_iff.mp hs
  obtain ⟨granted, ok⟩ := ok
  cases m with
  | threadId =>
    obtain ⟨-, ⟨⟩⟩ := Option.ite_none_right_eq_some.mp hr
    exact ⟨h.slots, granted⟩
  | allocate index bytes alignment answers =>
    obtain ⟨lt, ⟨⟩⟩ := Option.ite_none_right_eq_some.mp hr
    exact h.allocate lt rfl granted ok.1 ok.2
  | registerDestructor index task answers =>
    obtain ⟨lt, ⟨⟩⟩ := Option.ite_none_right_eq_some.mp hr
    exact h.registerDestructor lt rfl granted ok
  | release =>
    cases hr
    exact h.release rfl granted

/-- In every run whose calls keep clear of the slips, what different threads have been given lies
apart. -/
theorem apart_of_reach (pow : pageSize.isPowerOfTwo) (large : sizeofPageArray ≤ pageSize)
    (small : pageSize < 2 ^ 64) (h : (machine pageSize).Reach (proper pageSize) s) : Apart s := by
  have inv : Inv pageSize s := by
    refine h.inv (P := Inv pageSize) ?_ fun _ _ _ inv hs ok => inv.step hs ok
    rintro s rfl
    exact ⟨fun _ => .start pow large small (le_max_of_le_right (by decide)), granted_nil _⟩
  exact inv.apart

instance (s : SharedRegions) (m : SharedMove) (s' : SharedRegions) :
    Decidable (proper pageSize s m s') :=
  match m with
  | .threadId | .release =>
    inferInstanceAs (Decidable (Granted pageSize s'.run.pages s'.run.blocks ∧ True))
  | .allocate index bytes alignment _ =>
    inferInstanceAs (Decidable (Granted pageSize s'.run.pages s'.run.blocks ∧
      (alignment.isPowerOfTwo ∧ bytes + alignment < 2 ^ 48) ∧
        Sound (s.slot index).resource bytes alignment))
  | .registerDestructor index task answers =>
    inferInstanceAs (Decidable (Granted pageSize s'.run.pages s'.run.blocks ∧
      ResourceRun.SoundCall (s.slot index).resource (.registerDestructor task answers)))

/-- Two threads allocate from a page each, and the first one registers a destructor. -/
def twoPages : List SharedMove :=
  [.threadId, .threadId, .allocate 0 100 8 ⟨65536, 0, 0⟩, .allocate 1 200 16 ⟨69632, 0, 0⟩,
    .registerDestructor 0 ⟨65536, 1⟩ ⟨0, 0, 0⟩, .allocate 1 5000 16 ⟨0, 0, 131072⟩]

theorem apart_of_reach_twoPages : ∃ s, (machine 4096).run (initial 4096) twoPages = some s ∧
    (s.returned 0).map Returned.region = [⟨65536, 100⟩] ∧
      (s.returned 1).map Returned.region = [⟨131072, 5000⟩, ⟨69632, 200⟩] ∧ Apart s := by
  have along : (machine 4096).Along (proper 4096) (initial 4096) twoPages := by decide +kernel
  have seen : ((machine 4096).run (initial 4096) twoPages).map (fun s =>
      ((s.returned 0).map Returned.region, (s.returned 1).map Returned.region)) =
        some ([⟨65536, 100⟩], [⟨131072, 5000⟩, ⟨69632, 200⟩]) := by decide +kernel
  obtain ⟨s, run, reach, seen⟩ := Machine.Reach.of_along_seen (.start rfl) along seen
  obtain ⟨first, second⟩ := Prod.mk.inj seen
  exact ⟨s, run, first, second,
    apart_of_reach (by decide) (by decide) (by decide) reach⟩

end SharedRegions

end Fuxi.Mm
