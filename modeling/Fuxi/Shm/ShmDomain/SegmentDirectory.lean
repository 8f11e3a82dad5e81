import Fuxi.Shm.ShmDomain.GetSegment
import Fuxi.Shm.Topo.TopoState.Registration

/-!
# The segment directory

`RegisterSegment` claims an entry before it stores the name there, does not look at the result
of `SetName`, and does not compare the number of entries with the size of the table. The
directory is sound as long as neither check would have failed.
-/

namespace Fuxi.Shm

open Lib Topo

/-- The name is longer than the field of an entry, or it has no entry and none is left. -/
def SegmentIndicatorTable.Unstorable (t : SegmentIndicatorTable) (name : Name) : Prop :=
  maxDataNameLength < name.length ∨ t.segmentNum = maxSegmentNum ∧
    ∀ i < t.segmentNum, (t.indicatorTable i).field.isEquel name = false

/-- A call of `RegisterSegment`, and the table in front of it and behind it. -/
structure SegmentCall where
  before : SegmentIndicatorTable
  name : Name
  after : SegmentIndicatorTable
  idx : Int

/-- The directory of a domain, and the calls so far. -/
structure SegmentDirectory where
  table : SegmentIndicatorTable := {}
  calls : List SegmentCall := []

namespace SegmentDirectory

def register (s : SegmentDirectory) (name : Name) : Option SegmentDirectory := do
  let (table, idx) ← s.table.registerSegment name
  return ⟨table, ⟨s.table, name, table, idx⟩ :: s.calls⟩

/-- Registrations one after the other; no step if one writes behind the table. -/
def machine : Machine SegmentDirectory Name where
  start s := s = {}
  step s name := s.register name

/-- The indices number the names, and what cannot be stored is refused. -/
structure Lawful (s : SegmentDirectory) : Prop where
  index : ∀ c ∈ s.calls, ∀ c' ∈ s.calls, 0 ≤ c.idx → 0 ≤ c'.idx →
    (c.name = c'.name ↔ c.idx = c'.idx)
  refuses : ∀ c ∈ s.calls, c.before.Unstorable c.name → c.idx < 0 ∧ c.after = c.before

/-- All writes go to entries of the table, and the directory is lawful. -/
def Sound (names : List Name) : Prop := ∃ s, machine.run {} names = some s ∧ s.Lawful

/-- All names can be stored: they fit into an entry, and there is an entry for each. -/
def Storable (names : List Name) : Prop :=
  (∀ a ∈ names, a.length ≤ maxDataNameLength) ∧ names.dedup.length ≤ maxSegmentNum

/-! ## One call -/

variable {s t : SegmentDirectory} {held names : List Name} {name : Name}

/-- The table holds the names that were asked for, each call got the index of its name, and each
name could be stored. -/
structure Inv (s : SegmentDirectory) (held : List Name) : Prop where
  holds : s.table.Holds held
  clear : ∀ a ∈ held, 0 ∉ a
  asked : ∀ a, a ∈ held ↔ ∃ c ∈ s.calls, c.name = a
  index : ∀ c ∈ s.calls, ∃ i : Nat, c.idx = i ∧ held[i]? = some c.name
  storable : ∀ c ∈ s.calls, ¬c.before.Unstorable c.name

theorem inv_start : ({} : SegmentDirectory).Inv [] :=
  ⟨SegmentIndicatorTable.holds_start, by simp, by simp, by simp, by simp⟩

theorem register_eq (ret : s.register name = some t) :
    ∃ i : Nat, s.table.registerSegment name = some (t.table, i) ∧
      t.calls = ⟨s.table, name, t.table, i⟩ :: s.calls := by
  simp only [register, Option.bind_eq_bind, Option.bind_eq_some_iff] at ret
  obtain ⟨⟨table, i⟩, reg, eq⟩ := ret
  cases eq
  exact ⟨i, reg, rfl⟩

theorem Inv.nodup (h : s.Inv held) : held.Nodup := by
  refine h.holds.apart.imp ?_
  rintro a _ ne rfl
  exact ne (Alike.refl a)

/-- A table that answers within its bounds could store the name. -/
theorem storable_of_registerSegment {table table' : SegmentIndicatorTable} {i : Nat}
    (fits : name.length ≤ maxDataNameLength)
    (reg : table.registerSegment name = some (table', i)) : ¬table.Unstorable name := by
  rintro (long | ⟨full, missing⟩)
  · omega
  · have new : scan (fun i => (table.indicatorTable i).field.isEquel name) table.segmentNum =
        none := scan_none.mpr missing
    simp only [SegmentIndicatorTable.registerSegment, new, if_pos full.ge] at reg
    cases reg

theorem Inv.register (h : s.Inv held) (clear : 0 ∉ name) (fits : name.length ≤ maxDataNameLength)
    (ret : s.register name = some t) :
    ∃ held', t.Inv held' ∧ held' ⊆ name :: held := by
  obtain ⟨i, reg, calls⟩ := register_eq ret
  obtain ⟨held', holds, registers⟩ := h.holds.registerSegment fits reg
  obtain ⟨grows, here, new⟩ := registers.grows h.clear clear
  have old : ∀ c ∈ s.calls, ∃ i : Nat, c.idx = i ∧ held'[i]? = some c.name := by
    intro c hc
    obtain ⟨i, eq, at_⟩ := h.index c hc
    exact ⟨i, eq, TopoData.at_of_grows grows at_⟩
  refine ⟨held', ⟨holds, ?_, ?_, ?_, ?_⟩, ?_⟩
  · grind [h.clear]
  · intro a
    rw [calls, List.exists_mem_cons_iff, ← h.asked]
    have := List.mem_of_getElem? here
    have := grows.subset
    grind
  · rw [calls, List.forall_mem_cons]
    exact ⟨⟨i, rfl, here⟩, old⟩
  · rw [calls, List.forall_mem_cons]
    exact ⟨storable_of_registerSegment fits reg, h.storable⟩
  · intro a ha
    grind

/-- A name that is held, or for which there is an entry left, is answered. -/
theorem Inv.register_isSome (h : s.Inv held)
    (room : name ∈ held ∨ held.length < maxSegmentNum) : ∃ t, s.register name = some t := by
  have some : (s.table.registerSegment name).isSome := by
    obtain mem | room := room
    · obtain ⟨i, hi⟩ := List.getElem?_of_mem mem
      have lt : i < s.table.segmentNum := h.holds.num ▸ (List.getElem?_eq_some_iff.mp hi).1
      have found := (h.holds.stored i name hi name).mpr (Alike.refl name)
      unfold SegmentIndicatorTable.registerSegment
      split
      case h_1 => rfl
      case h_2 missing =>
        rw [scan_none.mp missing i lt] at found
        cases found
    · exact h.holds.registerSegment_isSome room name
  obtain ⟨r, hr⟩ := Option.isSome_iff_exists.mp some
  exact ⟨⟨r.1, ⟨s.table, name, r.1, r.2⟩ :: s.calls⟩, by simp [SegmentDirectory.register, hr]⟩

/-! ## Runs -/

/-- The names of a run are those of its calls. -/
theorem calls_of_run (run : machine.run s names = some t) :
    ∀ a ∈ names, ∃ c ∈ t.calls, c.name = a := by
  have more : ∀ {names s}, machine.run s names = some t → s.calls ⊆ t.calls ∧
      ∀ a ∈ names, ∃ c ∈ t.calls, c.name = a := by
    intro names
    induction names with
    | nil => simp
    | cons name names ih =>
      intro s run
      obtain ⟨u, ret, run⟩ := Option.bind_eq_some_iff.mp run
      obtain ⟨i, -, calls⟩ := register_eq ret
      obtain ⟨sub, rest⟩ := ih run
      refine ⟨fun c hc => sub (by simp [calls, hc]), List.forall_mem_cons.mpr ⟨?_, rest⟩⟩
      exact ⟨_, sub (by rw [calls]; exact List.mem_cons_self), rfl⟩
  exact (more run).2

/-- No call is refused. -/
theorem idx_nonneg_of_run (run : machine.run s names = some t) (start : ∀ c ∈ s.calls, 0 ≤ c.idx) :
    ∀ c ∈ t.calls, 0 ≤ c.idx := by
  induction names generalizing s with
  | nil =>
    cases run
    exact start
  | cons name names ih =>
    obtain ⟨u, ret, run⟩ := Option.bind_eq_some_iff.mp run
    obtain ⟨i, -, calls⟩ := register_eq ret
    apply ih run
    rw [calls, List.forall_mem_cons]
    exact ⟨Int.natCast_nonneg i, start⟩

theorem Inv.run (h : s.Inv held) (clear : ∀ a ∈ names, 0 ∉ a)
    (fits : ∀ a ∈ names, a.length ≤ maxDataNameLength) (run : machine.run s names = some t) :
    ∃ held', t.Inv held' := by
  induction names generalizing s held with
  | nil =>
    cases run
    exact ⟨held, h⟩
  | cons name names ih =>
    obtain ⟨u, ret, run⟩ := Option.bind_eq_some_iff.mp run
    rw [List.forall_mem_cons] at clear fits
    obtain ⟨held', inv, -⟩ := h.register clear.1 fits.1 ret
    exact ih inv clear.2 fits.2 run

/-- Names from a set that fits into the table are all answered. -/
theorem Inv.run_isSome (h : s.Inv held) (clear : ∀ a ∈ names, 0 ∉ a)
    (fits : ∀ a ∈ names, a.length ≤ maxDataNameLength) {all : List Name}
    (few : all.dedup.length ≤ maxSegmentNum) (sub : names ⊆ all) (old : held ⊆ all) :
    ∃ t, machine.run s names = some t := by
  induction names generalizing s held with
  | nil => exact ⟨s, rfl⟩
  | cons name names ih =>
    rw [List.forall_mem_cons] at clear fits
    obtain ⟨here, sub⟩ := List.cons_subset.mp sub
    have room : name ∈ held ∨ held.length < maxSegmentNum := by
      by_contra! new
      have nodup : (name :: held).Nodup := List.nodup_cons.mpr ⟨new.1, h.nodup⟩
      have within : name :: held ⊆ all.dedup := fun a ha =>
        List.mem_dedup.mpr (List.cons_subset.mpr ⟨here, old⟩ ha)
      have := (List.subperm_of_subset nodup within).length_le
      rw [List.length_cons] at this
      omega
    obtain ⟨u, ret⟩ := h.register_isSome room
    obtain ⟨held', inv, new⟩ := h.register clear.1 fits.1 ret
    obtain ⟨t, run⟩ := ih inv clear.2 fits.2 sub (by grind)
    exact ⟨t, by rw [Machine.run_cons]; exact Option.bind_eq_some_iff.mpr ⟨u, ret, run⟩⟩

theorem Inv.lawful (h : s.Inv held) : s.Lawful where
  index := by
    intro c hc c' hc' _ _
    obtain ⟨i, eq, at_⟩ := h.index c hc
    obtain ⟨j, eq', at_'⟩ := h.index c' hc'
    rw [eq, eq', Nat.cast_inj]
    constructor
    · intro same
      rw [same] at at_
      exact (List.getElem?_inj (List.getElem?_eq_some_iff.mp at_).1 h.nodup).mp
        (at_.trans at_'.symm)
    · rintro rfl
      exact Option.some.inj (at_.symm.trans at_')
  refuses := fun c hc unstorable => absurd unstorable (h.storable c hc)

/-- A lawful directory has never been asked for a name that is too long. -/
theorem Lawful.fits (h : t.Lawful) (run : machine.run {} names = some t) :
    ∀ a ∈ names, a.length ≤ maxDataNameLength := by
  intro a ha
  obtain ⟨c, hc, rfl⟩ := calls_of_run run a ha
  by_contra! long
  have answered := idx_nonneg_of_run run (by simp) c hc
  have refused := (h.refuses c hc (Or.inl long)).1
  omega

/-- The directory is sound exactly for the sequences of names that can all be stored. -/
theorem sound_iff (clear : ∀ a ∈ names, 0 ∉ a) : Sound names ↔ Storable names := by
  constructor
  · rintro ⟨s, run, lawful⟩
    obtain ⟨held, inv⟩ := inv_start.run clear (lawful.fits run) run
    refine ⟨lawful.fits run, le_trans ?_ inv.holds.fits⟩
    refine (List.subperm_of_subset (List.nodup_dedup _) fun a ha => ?_).length_le
    exact (inv.asked a).mpr (calls_of_run run a (List.mem_dedup.mp ha))
  · rintro ⟨fits, few⟩
    obtain ⟨s, run⟩ := inv_start.run_isSome clear fits few (List.Subset.refl _) (by simp)
    obtain ⟨held, inv⟩ := inv_start.run clear fits run
    exact ⟨s, run, inv.lawful⟩

/-- Two names, one of them asked for twice. -/
theorem sound_iff_two : Sound [[97], [98], [97]] ∧ Storable [[97], [98], [97]] :=
  have storable : Storable [[97], [98], [97]] := ⟨by decide, by decide⟩
  ⟨(sound_iff (by decide)).mpr storable, storable⟩

/-- A name that is too long gets an index, and the empty name gets the same one. -/
theorem registerSegment_too_long :
    (machine.run {} [List.replicate 257 97, []]).map
        (fun s => s.calls.map fun c => (c.name.length, c.idx)) = some [(0, 0), (257, 0)] ∧
      ¬Sound [List.replicate 257 97, []] := by
  refine ⟨by decide +kernel, ?_⟩
  rintro ⟨s, run, lawful⟩
  have := lawful.fits run _ List.mem_cons_self
  rw [List.length_replicate] at this
  exact absurd this (by decide)

end SegmentDirectory

end Fuxi.Shm
