import Fuxi.Shm.ShmDomain.GetSegment

/-!
# What a stored name stands for

`SetName` and `IsEquel` handle a `std::string` with `strncpy` and `strncmp`, which stop at the
first NUL. The length is stored beside the bytes, so a NUL does harm only if there are bytes
behind it.
-/

namespace Fuxi.Shm

open Topo

/-- `WriterSlot::SetName`. -/
def Topo.WriterSlot.setName (s : WriterSlot) (a : Name) : WriterSlot × Bool :=
  ({ s with field := (s.field.setName a).1 }, (s.field.setName a).2)

/-- `WriterSlot::IsEquel`. -/
def Topo.WriterSlot.isEquel (s : WriterSlot) (a : Name) : Bool := s.field.isEquel a

/-- `SegmentIndicator::SetName`. -/
def SegmentIndicator.setName (s : SegmentIndicator) (a : Name) : SegmentIndicator × Bool :=
  ({ s with field := (s.field.setName a).1 }, (s.field.setName a).2)

/-- `SegmentIndicator::IsEquel`. -/
def SegmentIndicator.isEquel (s : SegmentIndicator) (a : Name) : Bool := s.field.isEquel a

/-- Where the name is stored it compares equal to itself only. -/
structure StoredExactly (a : Name) : Prop where
  writerSlot : ∀ (s : WriterSlot) (b : Name), (s.setName a).2 = true →
    ((s.setName a).1.isEquel b = true ↔ a = b)
  segmentIndicator : ∀ (s : SegmentIndicator) (b : Name), (s.setName a).2 = true →
    ((s.setName a).1.isEquel b = true ↔ a = b)

namespace Topo

/-! ## Names that are alike -/

/-- A NUL ends the C string. -/
theorem cString_length_lt {l : List UInt8} (nul : 0 ∈ l) : (cString l).length < l.length := by
  refine lt_of_le_of_ne (cString_length_le l) fun eq => ?_
  have whole : cString l = l := (List.takeWhile_prefix _).eq_of_length eq
  have mem : (0 : UInt8) ∈ cString l := whole.symm ▸ nul
  simpa using List.mem_takeWhile_imp mem

/-- Bytes behind a NUL do not belong to the C string. -/
theorem cString_append_of_mem {l : List UInt8} (nul : 0 ∈ l) (m : List UInt8) :
    cString (l ++ m) = cString l := by
  rw [cString, List.takeWhile_append]
  exact if_neg (cString_length_lt nul).ne

theorem cString_append_of_notMem {l : List UInt8} (clear : 0 ∉ l) (m : List UInt8) :
    cString (l ++ m) = l ++ cString m := by
  refine List.takeWhile_append_of_pos fun x hx => ?_
  simpa using fun e : x = 0 => clear (e ▸ hx)

/-- A NUL before the last byte hides the last byte. -/
theorem alike_of_nul {l : List UInt8} (nul : 0 ∈ l) (x y : UInt8) :
    Alike (l ++ [x]) (l ++ [y]) := by
  refine ⟨by simp, ?_⟩
  rw [cString_append_of_mem nul, cString_append_of_mem nul]

/-- Without one, all bytes are compared. -/
theorem Alike.eq_of_append {l l' : List UInt8} {x y : UInt8} (clear : 0 ∉ l)
    (h : Alike (l ++ [x]) (l' ++ [y])) : l ++ [x] = l' ++ [y] := by
  obtain ⟨length, same⟩ := h
  have length : l.length = l'.length := by simpa using length
  by_cases nul : 0 ∈ l'
  · have short := cString_length_lt nul
    rw [cString_append_of_notMem clear, cString_append_of_mem nul] at same
    have := congrArg List.length same
    rw [List.length_append] at this
    omega
  · rw [cString_append_of_notMem clear, cString_append_of_notMem nul] at same
    obtain ⟨rfl, last⟩ := List.append_inj same length
    by_cases hx : x = 0 <;> by_cases hy : y = 0 <;> simp [cString, hx, hy] at last ⊢
    exact last

/-- The names that are alike to no other name. -/
theorem alike_eq_iff (a : Name) : (∀ b, Alike a b → a = b) ↔ 0 ∉ a.dropLast := by
  obtain rfl | ⟨l, x, rfl⟩ := a.eq_nil_or_concat
  · simp only [List.dropLast_nil, List.not_mem_nil, not_false_eq_true, iff_true]
    exact fun b h => (List.length_eq_zero_iff.mp h.1.symm).symm
  · rw [List.concat_eq_append, List.dropLast_concat]
    constructor
    · intro exact nul
      have := exact _ (alike_of_nul nul x (x + 1))
      simp at this
    · intro clear b h
      obtain rfl | ⟨l', y, rfl⟩ := b.eq_nil_or_concat
      · simpa using h.1
      · rw [List.concat_eq_append] at h ⊢
        exact h.eq_of_append clear

/-- A name is stored if it fits into the field. -/
theorem NameField.setName_iff (f : NameField) (a : Name) :
    (f.setName a).2 = true ↔ a.length ≤ maxDataNameLength := by
  unfold setName
  split_ifs with long
  · simp only [false_iff, not_le]
    exact long
  · simp only [true_iff]
    exact not_lt.mp long

end Topo

/-- A name that fits is stored exactly if it has no NUL before its last byte. -/
theorem storedExactly_iff (a : Name) :
    StoredExactly a ↔ (a.length ≤ maxDataNameLength → 0 ∉ a.dropLast) := by
  rw [← alike_eq_iff]
  constructor
  · intro exact fits b alike
    have stored : (({} : WriterSlot).setName a).2 = true := (NameField.setName_iff _ a).mpr fits
    refine (exact.writerSlot {} b stored).mp ?_
    exact (NameField.isEquel_setName _ fits b).mpr alike
  · intro exact
    have field : ∀ (f : NameField) (b : Name), (f.setName a).2 = true →
        ((f.setName a).1.isEquel b = true ↔ a = b) := by
      intro f b stored
      have fits := (f.setName_iff a).mp stored
      rw [f.isEquel_setName fits]
      exact ⟨exact fits b, fun eq => eq ▸ Alike.refl a⟩
    exact ⟨fun s => field s.field, fun s => field s.field⟩

/-- Behind a NUL the names `"a\0b"` and `"a\0c"` differ, but the stored one is equal to both. -/
theorem not_storedExactly :
    (({} : WriterSlot).setName [97, 0, 98]).2 = true ∧
      (({} : WriterSlot).setName [97, 0, 98]).1.isEquel [97, 0, 99] = true ∧
        ¬StoredExactly [97, 0, 98] := by
  have stored : (({} : WriterSlot).setName [97, 0, 98]).2 = true := by decide +kernel
  have equal : (({} : WriterSlot).setName [97, 0, 98]).1.isEquel [97, 0, 99] = true := by
    decide +kernel
  refine ⟨stored, equal, fun exact => ?_⟩
  have := (exact.writerSlot {} [97, 0, 99] stored).mp equal
  exact absurd this (by decide)

end Fuxi.Shm
