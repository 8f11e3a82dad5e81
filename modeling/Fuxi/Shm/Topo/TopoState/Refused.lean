import Fuxi.Shm.Topo.TopoState.Capacity

/-!
# What a failed registration leaves behind

`RegisterReader` may create the writer slot of the name before it looks for a reader slot. A slot
that has just been created has no readers, so the second step cannot fail after the first has
written anything.
-/

namespace Fuxi.Shm.Topo

open Lib

/-- A call that does not give an index leaves the tables as they are. -/
structure TopoRun.Untouched (s : TopoRun) (processIdx : Int) (name : Name) : Prop where
  writer : (s.data.registerWriter name).2 < 0 → (s.data.registerWriter name).1 = s.data
  reader : (s.data.registerReader processIdx name).2.readerIdx = -1 ∨
      (s.data.registerReader processIdx name).2.writerIdx = -1 →
    (s.data.registerReader processIdx name).1 = s.data

namespace TopoData

variable {d : TopoData} {names : List Name} {name : Name}

/-- `RegisterWriterLocked` leaves the tables alone, or it returns the slot that was the next
free one. -/
theorem registerWriterLocked_same_or_next (d : TopoData) (name : Name) :
    (d.registerWriterLocked name).1 = d ∨
      (d.registerWriterLocked name).2 = d.writerNum ∧
        ((d.registerWriterLocked name).1.writerSlotTable d.writerNum).readerNum =
          (d.writerSlotTable d.writerNum).readerNum := by
  unfold registerWriterLocked
  split
  case h_1 => exact Or.inl rfl
  case h_2 =>
    split_ifs with full
    · exact Or.inl rfl
    · refine Or.inr ⟨rfl, ?_⟩
      rw [setSlot_same]

/-- Where `RegisterReaderLocked` finds no room it writes nothing. -/
theorem registerReaderLocked_untouched {p : Int} {w : Nat}
    (refused : (d.registerReaderLocked p w).2 = -1) : (d.registerReaderLocked p w).1 = d := by
  simp only [registerReaderLocked] at refused ⊢
  split at refused
  · rfl
  · split_ifs at refused ⊢ with full
    rfl

theorem Holds.registerWriter_untouched (h : d.Holds names)
    (refused : (d.registerWriter name).2 < 0) : (d.registerWriter name).1 = d := by
  obtain eq | ⟨d', w, names', eq, -⟩ := h.registerWriter name
  · rw [eq]
  · rw [eq] at refused
    simp only at refused
    omega

/-- The free slots have no readers, so there is room for the first reader of a new name. -/
theorem Holds.readerNum_next (h : d.Holds names) :
    (d.writerSlotTable d.writerNum).readerNum = 0 := by
  rw [← WriterSlot.length_readers, h.blank _ h.num.ge, List.length_nil]

theorem Holds.registerReader_untouched (h : d.Holds names) (p : Int)
    (refused : (d.registerReader p name).2.readerIdx = -1 ∨
      (d.registerReader p name).2.writerIdx = -1) : (d.registerReader p name).1 = d := by
  by_cases long : maxDataNameLength < name.length
  · rw [TopoData.registerReader, if_pos long]
  have fits := not_lt.mp long
  simp only [TopoData.registerReader, if_neg long] at refused ⊢
  obtain ⟨eq, -⟩ | ⟨d₁, w, names', eq, -, registers, -⟩ := h.registerWriterLocked fits
  · simp [eq]
  have some : ¬(w : Int) = -1 := by omega
  have same_or_next := d.registerWriterLocked_same_or_next name
  simp only [eq, some, if_false, Int.toNat_natCast] at refused same_or_next ⊢
  have locked : (d₁.registerReaderLocked p w).2 = -1 := by
    split_ifs at refused with got
    · simpa [some] using refused
    · simpa [some] using refused
  rw [if_neg (by omega), registerReaderLocked_untouched locked]
  obtain same | ⟨next, readerNum⟩ := same_or_next
  · exact same
  · have full := registerReaderLocked_refused locked
    obtain rfl : w = d.writerNum := by exact_mod_cast next
    rw [readerNum, h.readerNum_next] at full
    exact absurd full (by decide)

end TopoData

namespace TopoRun

variable {s : TopoRun}

/-- In every state that registrations of any names lead to, a registration that fails has
changed nothing. -/
theorem untouched_of_reach (h : machine.Reach Machine.free s) (processIdx : Int) (name : Name) :
    s.Untouched processIdx name := by
  obtain ⟨names, named⟩ := named_of_reach h
  exact ⟨named.holds.registerWriter_untouched,
    named.holds.registerReader_untouched processIdx⟩

/-- A reader of a name that is too long, when another reader is registered. -/
theorem untouched_of_reach_long :
    let s : TopoRun := TopoRun.next {} (.registerReader 3 [97])
    machine.Reach Machine.free s ∧
      (s.data.registerReader 3 (List.replicate 257 97)).2.readerIdx = -1 ∧
        s.Untouched 3 (List.replicate 257 97) :=
  have reach : machine.Reach Machine.free (TopoRun.next {} (.registerReader 3 [97])) :=
    .step (.start rfl) rfl trivial
  ⟨reach, by decide +kernel, untouched_of_reach reach 3 _⟩

end TopoRun

end Fuxi.Shm.Topo
