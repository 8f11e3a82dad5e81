import Mathlib.Data.Int.Cast.Lemmas
import Mathlib.Data.List.Dedup
import Fuxi.Lib.Machine
import Fuxi.Shm.Topo.TopoState

/-!
# Runs of registrations

The two tables of `TopoState` only grow: names are appended to the table of writers and
processes to the readers of a name. What a call has returned therefore stays true.
-/

namespace Fuxi.Shm.Topo

open Lib

/-- The calls of `TopoState`. -/
inductive TopoCall
  | registerWriter (processIdx : Int) (name : Name)
  | registerReader (processIdx : Int) (name : Name)

def TopoCall.name : TopoCall → Name
  | .registerWriter _ name => name
  | .registerReader _ name => name

/-- The name has no NUL and fits into a slot. -/
def TopoCall.Proper (c : TopoCall) : Prop := 0 ∉ c.name ∧ c.name.length ≤ maxDataNameLength

instance (c : TopoCall) : Decidable c.Proper := inferInstanceAs (Decidable (_ ∧ _))

/-- A call and what it returns; a writer has no reader index. -/
def TopoData.call (d : TopoData) : TopoCall → TopoData × ReaderIndex
  | .registerWriter _ name => ((d.registerWriter name).1, ⟨(d.registerWriter name).2, -1⟩)
  | .registerReader processIdx name => d.registerReader processIdx name

/-- The tables, and the calls so far with what they returned. -/
structure TopoRun where
  data : TopoData := {}
  returned : List (TopoCall × ReaderIndex) := []

namespace TopoRun

def next (s : TopoRun) (c : TopoCall) : TopoRun :=
  ⟨(s.data.call c).1, (c, (s.data.call c).2) :: s.returned⟩

/-- Registrations one after the other. -/
def machine : Machine TopoRun TopoCall where
  start s := s = {}
  step s c := some (s.next c)

def proper : TopoRun → TopoCall → TopoRun → Prop := fun _ c _ => c.Proper

instance (s : TopoRun) (c : TopoCall) (t : TopoRun) : Decidable (proper s c t) :=
  inferInstanceAs (Decidable c.Proper)

/-- The names that a call got an index for, each once. -/
def registered (s : TopoRun) : List Name :=
  ((s.returned.filter fun r => r.2.writerIdx ≠ -1).map fun r => r.1.name).dedup

/-- What holds of the tables and of all that was returned, and what the next call leaves
alone. -/
structure Registered (s : TopoRun) : Prop where
  writerIdx : ∀ r ∈ s.returned, ∀ r' ∈ s.returned,
    r.2.writerIdx ≠ -1 → r'.2.writerIdx ≠ -1 →
      (r.1.name = r'.1.name ↔ r.2.writerIdx = r'.2.writerIdx)
  writerNum : s.data.writerNum = s.registered.length
  writerFits : s.data.writerNum ≤ maxWriterNum
  readersNodup : ∀ w, (s.data.writerSlotTable w).readers.Nodup
  readersFit : ∀ w, (s.data.writerSlotTable w).readerNum ≤ maxReaderNum
  readerIdx : ∀ r ∈ s.returned, ∀ r' ∈ s.returned, ∀ p p' a,
    r.1 = .registerReader p a → r'.1 = .registerReader p' a →
    r.2.readerIdx ≠ -1 → r'.2.readerIdx ≠ -1 → (p = p' ↔ r.2.readerIdx = r'.2.readerIdx)
  frame : ∀ (c : TopoCall) (v : Nat), c.Proper → (v : Int) ≠ (s.data.call c).2.writerIdx →
    (s.data.call c).1.writerSlotTable v = s.data.writerSlotTable v

end TopoRun

/-! ## What one call does -/

/-- A name that gets an index stays behind in the list at that index. -/
theorem Registers.grows {names names' : List Name} {name : Name} {w : Nat}
    (h : Registers names names' name w)
    (clear : ∀ a ∈ names, 0 ∉ a) (clear' : 0 ∉ name) :
    names <+: names' ∧ names'[w]? = some name ∧ ∀ a ∈ names', a ∈ names ∨ a = name := by
  obtain ⟨a, ha, alike, rfl⟩ | ⟨-, rfl, rfl⟩ := h
  · obtain rfl := alike.eq (clear a (List.mem_of_getElem? ha)) clear'
    exact ⟨List.prefix_rfl, ha, fun _ h => Or.inl h⟩
  · exact ⟨List.prefix_append _ _, by simp, fun a ha => by simpa using ha⟩

/-- What a call has returned, read off the tables. -/
structure TopoData.Told (d : TopoData) (names : List Name) (c : TopoCall) (r : ReaderIndex) :
    Prop where
  writer : r.writerIdx ≠ -1 → ∃ w : Nat, r.writerIdx = w ∧ names[w]? = some c.name
  reader : r.readerIdx ≠ -1 → ∃ (w i : Nat) (p : Int), r = ⟨w, i⟩ ∧
    c = .registerReader p c.name ∧ names[w]? = some c.name ∧
      (d.writerSlotTable w).readers[i]? = some p

/-- The tables only grow. -/
structure TopoData.Grows (d d' : TopoData) (names names' : List Name) : Prop where
  names : names <+: names'
  readers : ∀ v, (d.writerSlotTable v).readers <+: (d'.writerSlotTable v).readers

namespace TopoData

variable {d d' : TopoData} {names names' : List Name}

theorem Grows.refl (d : TopoData) (names : List Name) : d.Grows d names names :=
  ⟨List.prefix_rfl, fun _ => List.prefix_rfl⟩

theorem at_of_grows {α : Type} {l l' : List α} (h : l <+: l') {i : Nat} {x : α}
    (hx : l[i]? = some x) : l'[i]? = some x := by
  obtain ⟨hi, rfl⟩ := List.getElem?_eq_some_iff.mp hx
  exact List.prefix_iff_getElem?.mp h i hi

/-- What was returned stays true. -/
theorem Told.mono {c : TopoCall} {r : ReaderIndex} (h : d.Told names c r)
    (grows : d.Grows d' names names') : d'.Told names' c r := by
  refine ⟨fun some => ?_, fun some => ?_⟩
  · obtain ⟨w, eq, hw⟩ := h.writer some
    exact ⟨w, eq, at_of_grows grows.names hw⟩
  · obtain ⟨w, i, p, eq, hc, hw, hi⟩ := h.reader some
    exact ⟨w, i, p, eq, hc, at_of_grows grows.names hw,
      at_of_grows (grows.readers w) hi⟩

/-- What one call does to tables that hold names without a NUL. -/
theorem Holds.call (h : d.Holds names) (clear : ∀ a ∈ names, 0 ∉ a) {c : TopoCall}
    (proper : c.Proper) : ∃ names', (d.call c).1.Holds names' ∧ d.Grows (d.call c).1 names names' ∧
      (d.call c).1.Told names' c (d.call c).2 ∧
        ∀ a ∈ names', a ∈ names ∨ a = c.name ∧ (d.call c).2.writerIdx ≠ -1 := by
  have failed : d.Told names c {} := ⟨fun h => absurd rfl h, fun h => absurd rfl h⟩
  cases c with
  | registerWriter p name =>
    simp only [TopoData.call]
    obtain eq | ⟨d', w, names', eq, holds, registers, readers⟩ := h.registerWriter name
    · rw [eq]
      exact ⟨names, h, Grows.refl d names, failed, fun a ha => Or.inl ha⟩
    · obtain ⟨grow, hw, new⟩ := registers.grows clear proper.1
      rw [eq]
      refine ⟨names', holds, ⟨grow, fun v => readers v ▸ List.prefix_rfl⟩,
        ⟨fun _ => ⟨w, rfl, hw⟩, ?_⟩, ?_⟩
      · exact fun h => absurd rfl h
      · exact fun a ha => (new a ha).imp_right fun e => ⟨e, by simp⟩
  | registerReader p name =>
    simp only [TopoData.call]
    obtain eq | ⟨d₁, w, names', holds, registers, readers, outcome⟩ := h.registerReader p name
    · rw [eq]
      exact ⟨names, h, Grows.refl d names, failed, fun a ha => Or.inl ha⟩
    obtain ⟨grow, hw, new⟩ := registers.grows clear proper.1
    obtain eq | ⟨d', r, eq, holds', at_, mine, others⟩ := outcome
    · rw [eq]
      refine ⟨names', holds, ⟨grow, fun v => readers v ▸ List.prefix_rfl⟩,
        ⟨fun _ => ⟨w, rfl, hw⟩, ?_⟩, ?_⟩
      · exact fun h => absurd rfl h
      · exact fun a ha => (new a ha).imp_right fun e => ⟨e, by simp⟩
    · rw [eq]
      refine ⟨names', holds', ⟨grow, fun v => ?_⟩,
        ⟨fun _ => ⟨w, rfl, hw⟩, fun _ => ⟨w, r, p, rfl, rfl, hw, at_⟩⟩, ?_⟩
      · rw [← readers v]
        by_cases e : v = w
        · subst e
          rw [mine]
          split_ifs
          · exact List.prefix_rfl
          · exact List.prefix_append _ _
        · exact others v e ▸ List.prefix_rfl
      · exact fun a ha => (new a ha).imp_right fun e => ⟨e, by simp⟩

/-! ## The slots that are left alone -/

theorem registerWriterLocked_other {name : Name} {v : Nat}
    (h : (v : Int) ≠ (d.registerWriterLocked name).2) :
    (d.registerWriterLocked name).1.writerSlotTable v = d.writerSlotTable v := by
  revert h
  unfold registerWriterLocked
  split
  · exact fun _ => rfl
  · split_ifs
    · exact fun _ => rfl
    · intro h
      exact setSlot_of_ne _ _ fun e => h (by rw [e])

theorem registerWriterLocked_idx (d : TopoData) (name : Name) :
    (d.registerWriterLocked name).2 = -1 ∨ 0 ≤ (d.registerWriterLocked name).2 := by
  unfold registerWriterLocked
  split
  · exact Or.inr (Int.natCast_nonneg _)
  · split_ifs
    · exact Or.inl rfl
    · exact Or.inr (Int.natCast_nonneg _)

theorem registerWriter_other {name : Name} {v : Nat} (h : (v : Int) ≠ (d.registerWriter name).2) :
    (d.registerWriter name).1.writerSlotTable v = d.writerSlotTable v := by
  by_cases long : maxDataNameLength < name.length
  · simp [registerWriter, long]
  have locked : (v : Int) ≠ (d.registerWriterLocked name).2 → _ := registerWriterLocked_other
  simp only [registerWriter, long, if_false] at h ⊢
  by_cases got : 0 ≤ (d.registerWriterLocked name).2
  · simp only [got, if_true] at h ⊢
    rw [setSlot_of_ne _ _ fun e => h (by rw [e, Int.toNat_of_nonneg got])]
    exact locked h
  · simp only [got, if_false] at h ⊢
    exact locked h

theorem registerReaderLocked_other (p : Int) {w v : Nat} (h : v ≠ w) :
    (d.registerReaderLocked p w).1.writerSlotTable v = d.writerSlotTable v := by
  unfold registerReaderLocked
  simp only
  split
  · rfl
  · split_ifs
    · rfl
    · exact setSlot_of_ne _ _ h

theorem registerReader_other {p : Int} {name : Name} {v : Nat}
    (h : (v : Int) ≠ (d.registerReader p name).2.writerIdx) :
    (d.registerReader p name).1.writerSlotTable v = d.writerSlotTable v := by
  by_cases long : maxDataNameLength < name.length
  · simp [registerReader, long]
  have locked : (v : Int) ≠ (d.registerWriterLocked name).2 → _ := registerWriterLocked_other
  simp only [registerReader, long, if_false] at h ⊢
  by_cases failed : (d.registerWriterLocked name).2 = -1
  · simp only [failed, if_true] at h ⊢
    exact locked (by omega)
  have idx := (d.registerWriterLocked_idx name).resolve_left failed
  simp only [failed, if_false] at h ⊢
  by_cases got : 0 ≤ ((d.registerWriterLocked name).1.registerReaderLocked p
      (d.registerWriterLocked name).2.toNat).2
  · simp only [got, if_true] at h ⊢
    have ne : v ≠ (d.registerWriterLocked name).2.toNat := by omega
    rw [setSlot_of_ne _ _ ne, registerReaderLocked_other p ne]
    exact locked h
  · simp only [got, if_false] at h ⊢
    have ne : v ≠ (d.registerWriterLocked name).2.toNat := by omega
    rw [registerReaderLocked_other p ne]
    exact locked h

theorem call_other {c : TopoCall} {v : Nat} (h : (v : Int) ≠ (d.call c).2.writerIdx) :
    (d.call c).1.writerSlotTable v = d.writerSlotTable v := by
  cases c with
  | registerWriter p name => exact registerWriter_other h
  | registerReader p name => exact registerReader_other h

end TopoData

namespace TopoRun

/-! ## Runs -/

/-- The tables hold names without a NUL, each of which some call has got an index for, and
all that was returned is true of the tables. -/
structure Inv (s : TopoRun) (names : List Name) : Prop where
  holds : s.data.Holds names
  clear : ∀ a ∈ names, 0 ∉ a
  told : ∀ r ∈ s.returned, s.data.Told names r.1 r.2
  got : ∀ a ∈ names, ∃ r ∈ s.returned, r.2.writerIdx ≠ -1 ∧ r.1.name = a

variable {s : TopoRun} {names : List Name}

theorem inv_start : ({} : TopoRun).Inv [] :=
  ⟨TopoData.holds_start, by simp, by simp, by simp⟩

theorem Inv.next (h : s.Inv names) {c : TopoCall} (proper : c.Proper) :
    ∃ names', (s.next c).Inv names' := by
  obtain ⟨names', holds, grows, told, new⟩ := h.holds.call h.clear proper
  refine ⟨names', holds, fun a ha => ?_, fun r hr => ?_, fun a ha => ?_⟩
  · obtain old | ⟨rfl, -⟩ := new a ha
    · exact h.clear a old
    · exact proper.1
  · obtain rfl | old := List.mem_cons.mp hr
    · exact told
    · exact (h.told r old).mono grows
  · obtain old | ⟨rfl, some⟩ := new a ha
    · obtain ⟨r, hr, got⟩ := h.got a old
      exact ⟨r, List.mem_cons_of_mem _ hr, got⟩
    · exact ⟨_, List.mem_cons_self, some, rfl⟩

theorem inv_of_reach (h : machine.Reach proper s) : ∃ names, s.Inv names := by
  induction h with
  | start h => exact ⟨[], h ▸ inv_start⟩
  | step _ move side ih =>
    obtain ⟨names, inv⟩ := ih
    cases move
    exact inv.next side

/-- The names in the table are different. -/
theorem Inv.nodup (h : s.Inv names) : names.Nodup := by
  refine h.holds.apart.imp ?_
  rintro a _ ne rfl
  exact ne (Alike.refl a)

theorem Inv.mem_registered (h : s.Inv names) (a : Name) : a ∈ s.registered ↔ a ∈ names := by
  simp only [registered, List.mem_dedup, List.mem_map, List.mem_filter]
  constructor
  · rintro ⟨r, ⟨hr, some⟩, rfl⟩
    obtain ⟨w, -, hw⟩ := (h.told r hr).writer (by simpa using some)
    exact List.mem_of_getElem? hw
  · intro ha
    obtain ⟨r, hr, some, rfl⟩ := h.got a ha
    exact ⟨r, ⟨hr, by simpa using some⟩, rfl⟩

/-- Two entries of a list without repetition are equal exactly when their positions are. -/
theorem at_eq_iff {α : Type} {l : List α} (nodup : l.Nodup) {i j : Nat} {x y : α}
    (hx : l[i]? = some x) (hy : l[j]? = some y) : x = y ↔ (i : Int) = j := by
  obtain ⟨hi, rfl⟩ := List.getElem?_eq_some_iff.mp hx
  obtain ⟨hj, rfl⟩ := List.getElem?_eq_some_iff.mp hy
  rw [nodup.getElem_inj_iff, Int.natCast_inj]

/-- In every run of registrations of proper names, an index is bound to one name for good,
the table of writers holds the registered names, the readers of a name are different
processes with an index each, and a call leaves every other slot alone. -/
theorem registered_of_reach (h : machine.Reach proper s) : s.Registered := by
  obtain ⟨names, inv⟩ := inv_of_reach h
  have perm : s.registered.Perm names :=
    (List.perm_ext_iff_of_nodup (List.nodup_dedup _) inv.nodup).mpr inv.mem_registered
  refine ⟨fun r hr r' hr' some some' => ?_, ?_, ?_, fun w => (inv.holds.slots w).nodup,
    fun w => (inv.holds.slots w).fits, fun r hr r' hr' p p' a eq eq' some some' => ?_,
    fun c v _ => TopoData.call_other⟩
  · obtain ⟨w, e, hw⟩ := (inv.told r hr).writer some
    obtain ⟨w', e', hw'⟩ := (inv.told r' hr').writer some'
    rw [e, e']
    exact at_eq_iff inv.nodup hw hw'
  · rw [inv.holds.num, perm.length_eq]
  · rw [inv.holds.num]
    exact inv.holds.fits.trans (by decide)
  · obtain ⟨w, i, q, e, hc, hw, hi⟩ := (inv.told r hr).reader some
    obtain ⟨w', i', q', e', hc', hw', hi'⟩ := (inv.told r' hr').reader some'
    rw [eq] at hc hw
    rw [eq'] at hc' hw'
    cases hc
    cases hc'
    have same : w = w' := by exact_mod_cast (at_eq_iff inv.nodup hw hw').mp rfl
    subst same
    rw [e, e']
    exact at_eq_iff (inv.holds.slots w).nodup hi hi'

/-- Two processes read a name that a third one writes, one of them asks again, and the third
one writes another name. -/
def twoReaders : List TopoCall :=
  [.registerReader 0 [97], .registerReader 1 [97], .registerWriter 2 [97], .registerReader 0 [97],
    .registerWriter 2 [98]]

theorem registered_of_reach_twoReaders :
    ∃ s, machine.run {} twoReaders = some s ∧
      s.returned.map (fun r => (r.2.writerIdx, r.2.readerIdx)) =
        [(1, -1), (0, 0), (0, -1), (0, 1), (0, 0)] ∧ s.Registered := by
  have along : machine.Along proper {} twoReaders := by decide +kernel
  have seen : (machine.run {} twoReaders).map
      (fun s => s.returned.map fun r => (r.2.writerIdx, r.2.readerIdx)) =
        some [(1, -1), (0, 0), (0, -1), (0, 1), (0, 0)] := by decide +kernel
  obtain ⟨s, run, reach, seen⟩ := Machine.Reach.of_along_seen (.start rfl) along seen
  exact ⟨s, run, seen, registered_of_reach reach⟩

end TopoRun

end Fuxi.Shm.Topo
