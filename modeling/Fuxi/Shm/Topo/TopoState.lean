import Mathlib.Data.List.Nodup
import Mathlib.Data.List.TakeWhile
import Fuxi.Lib.Scan

/-!
# `TopoState`

The table of writers and their readers in a domain. A name gets a writer slot when it is
first registered, and a process gets a reader slot in the writer slot of a name.
-/

namespace Fuxi.Shm.Topo

open Lib

/-! ## `ShmMeta` -/

def maxDataNameLength : Nat := 256
def maxProcessNum : Nat := 256
def maxWriterNum : Nat := 1024
def maxReaderNum : Nat := 128
def maxReaderEventSize : Nat := 512

/-! ## Names -/

/-- The bytes of a `std::string`. -/
abbrev Name := List UInt8

/-- The C string at the start of some bytes. -/
def cString (bytes : List UInt8) : List UInt8 := bytes.takeWhile (· ≠ 0)

/-- `strncmp(a, b, n) == 0`. -/
def strncmpEq (a b : List UInt8) (n : Nat) : Bool := (cString a).take n = (cString b).take n

/-- The fields `name` and `name_len` of `WriterSlot` and of `SegmentIndicator`. -/
structure NameField where
  name : List UInt8 := List.replicate maxDataNameLength 0
  nameLen : Nat := 0

/-- `SetName`: `strncpy` copies the C string of the name into a cleared buffer. -/
def NameField.setName (f : NameField) (a : Name) : NameField × Bool :=
  if maxDataNameLength < a.length then (f, false)
  else
    (⟨cString a ++ List.replicate (maxDataNameLength - (cString a).length) 0, a.length⟩, true)

/-- `IsEquel`. -/
def NameField.isEquel (f : NameField) (a : Name) : Bool :=
  f.nameLen = a.length && strncmpEq f.name a f.nameLen

/-- Two names that a stored name cannot tell apart: they have the same length and agree up
to the first NUL. -/
def Alike (a b : Name) : Prop := a.length = b.length ∧ cString a = cString b

instance (a b : Name) : Decidable (Alike a b) := inferInstanceAs (Decidable (_ ∧ _))

theorem Alike.refl (a : Name) : Alike a a := ⟨rfl, rfl⟩

theorem Alike.symm {a b : Name} (h : Alike a b) : Alike b a := ⟨h.1.symm, h.2.symm⟩

theorem Alike.trans {a b c : Name} (h : Alike a b) (h' : Alike b c) : Alike a c :=
  ⟨h.1.trans h'.1, h.2.trans h'.2⟩

/-- Names without a NUL are alike only if they are equal. -/
theorem Alike.eq {a b : Name} (h : Alike a b) (ha : 0 ∉ a) (hb : 0 ∉ b) : a = b := by
  have whole : ∀ {c : Name}, 0 ∉ c → cString c = c := by
    intro c hc
    refine List.takeWhile_eq_self_iff.mpr fun x hx => ?_
    simpa using fun e : x = 0 => hc (e ▸ hx)
  rw [← whole ha, h.2, whole hb]

theorem cString_length_le (a : Name) : (cString a).length ≤ a.length :=
  (List.takeWhile_sublist _).length_le

/-- Zeros behind a C string do not belong to it. -/
theorem cString_padded (a : Name) (n : Nat) :
    cString (cString a ++ List.replicate n 0) = cString a := by
  induction a with
  | nil => cases n <;> simp [cString, List.replicate_succ]
  | cons x xs ih =>
    by_cases hx : x = 0
    · cases n <;> simp [cString, hx, List.replicate_succ]
    · simpa [cString, hx] using ih

/-- A stored name compares equal to the names that are alike. -/
theorem NameField.isEquel_setName (f : NameField) {a : Name} (fits : a.length ≤ maxDataNameLength)
    (b : Name) : (f.setName a).1.isEquel b = true ↔ Alike a b := by
  simp only [setName, if_neg (not_lt.mpr fits), isEquel, strncmpEq, cString_padded,
    Bool.and_eq_true, decide_eq_true_eq, Alike]
  refine and_congr_right fun len => ?_
  rw [List.take_of_length_le (cString_length_le a),
    List.take_of_length_le (by rw [len]; exact cString_length_le b)]

/-! ## The table -/

structure ReaderSlot where
  isOnline : Bool := false
  processStateIndex : Int := -1

structure WriterSlot where
  isOnline : Bool := false
  field : NameField := {}
  readerNum : Nat := 0
  readerSlots : Nat → ReaderSlot := fun _ => {}

/-- `TopoData`. -/
structure TopoData where
  writerNum : Nat := 0
  writerSlotTable : Nat → WriterSlot := fun _ => {}

/-- `ReaderIndex`. -/
structure ReaderIndex where
  writerIdx : Int := -1
  readerIdx : Int := -1

namespace TopoData

def setSlot (d : TopoData) (i : Nat) (slot : WriterSlot) : TopoData :=
  { d with writerSlotTable := Function.update d.writerSlotTable i slot }

/-- `RegisterWriterLocked`; the bound on the writers is `MAX_READER_NUM`. -/
def registerWriterLocked (d : TopoData) (name : Name) : TopoData × Int :=
  match scan (fun i => (d.writerSlotTable i).field.isEquel name) d.writerNum with
  | some i => (d, i)
  | none =>
    if maxReaderNum ≤ d.writerNum then (d, -1)
    else
      let idx := d.writerNum
      let slot := d.writerSlotTable idx
      ({ d.setSlot idx { slot with field := (slot.field.setName name).1 } with
          writerNum := idx + 1 }, idx)

/-- `RegisterWriter`. -/
def registerWriter (d : TopoData) (name : Name) : TopoData × Int :=
  if maxDataNameLength < name.length then (d, -1)
  else
    let (d', idx) := d.registerWriterLocked name
    if 0 ≤ idx then
      (d'.setSlot idx.toNat { d'.writerSlotTable idx.toNat with isOnline := true }, idx)
    else (d', idx)

/-- `RegisterReaderLocked`. -/
def registerReaderLocked (d : TopoData) (processIdx : Int) (writerIdx : Nat) : TopoData × Int :=
  let slot := d.writerSlotTable writerIdx
  match scan (fun i => decide ((slot.readerSlots i).processStateIndex = processIdx))
      slot.readerNum with
  | some i => (d, i)
  | none =>
    if maxReaderNum ≤ slot.readerNum then (d, -1)
    else
      let idx := slot.readerNum
      (d.setSlot writerIdx
        { slot with
          readerNum := idx + 1
          readerSlots := Function.update slot.readerSlots idx ⟨true, processIdx⟩ }, idx)

/-- `RegisterReader`. -/
def registerReader (d : TopoData) (processIdx : Int) (name : Name) : TopoData × ReaderIndex :=
  if maxDataNameLength < name.length then (d, {})
  else
    let (d₁, writerIdx) := d.registerWriterLocked name
    if writerIdx = -1 then (d₁, {})
    else
      let (d₂, readerIdx) := d₁.registerReaderLocked processIdx writerIdx.toNat
      if 0 ≤ readerIdx then
        let slot := d₂.writerSlotTable writerIdx.toNat
        let online := { slot.readerSlots readerIdx.toNat with isOnline := true }
        (d₂.setSlot writerIdx.toNat
          { slot with readerSlots := Function.update slot.readerSlots readerIdx.toNat online },
          ⟨writerIdx, readerIdx⟩)
      else (d₂, ⟨writerIdx, readerIdx⟩)

end TopoData

/-! ## What the table represents -/

/-- The process indices in the reader slots. -/
def WriterSlot.readers (s : WriterSlot) : List Int :=
  (List.range s.readerNum).map fun i => (s.readerSlots i).processStateIndex

/-- The reader slots in use are online and belong to different processes. -/
structure WriterSlot.Ok (s : WriterSlot) : Prop where
  online : ∀ i < s.readerNum, (s.readerSlots i).isOnline = true
  nodup : s.readers.Nodup
  fits : s.readerNum ≤ maxReaderNum

/-- The table holds these names, in the order of their registration. -/
structure TopoData.Holds (d : TopoData) (names : List Name) : Prop where
  num : d.writerNum = names.length
  fits : names.length ≤ maxReaderNum
  stored : ∀ w a, names[w]? = some a →
    ∀ b, (d.writerSlotTable w).field.isEquel b = true ↔ Alike a b
  apart : names.Pairwise fun a b => ¬Alike a b
  slots : ∀ w, (d.writerSlotTable w).Ok
  blank : ∀ w, names.length ≤ w → (d.writerSlotTable w).readers = []

/-- How the names change when one of them gets the index `w`: it is there already, or it
is appended. -/
def Registers (names names' : List Name) (name : Name) (w : Nat) : Prop :=
  (∃ a, names[w]? = some a ∧ Alike a name ∧ names' = names) ∨
    (∀ a ∈ names, ¬Alike a name) ∧ w = names.length ∧ names' = names ++ [name]

theorem Registers.lt {names names' : List Name} {name : Name} {w : Nat}
    (h : Registers names names' name w) : w < names'.length := by
  obtain ⟨a, ha, -, rfl⟩ | ⟨-, rfl, rfl⟩ := h
  · exact (List.getElem?_eq_some_iff.mp ha).1
  · simp

theorem TopoData.holds_start : ({} : TopoData).Holds [] where
  num := rfl
  fits := Nat.zero_le _
  stored := fun w a h => by simp at h
  apart := List.Pairwise.nil
  slots := fun _ => ⟨fun i hi => absurd hi (Nat.not_lt_zero i), List.nodup_nil, Nat.zero_le _⟩
  blank := fun _ _ => rfl

namespace WriterSlot

variable {s : WriterSlot}

theorem length_readers (s : WriterSlot) : s.readers.length = s.readerNum := by simp [readers]

/-- A reader slot more. -/
theorem readers_append (s : WriterSlot) (p : Int) :
    ({ s with
      readerNum := s.readerNum + 1
      readerSlots := Function.update s.readerSlots s.readerNum ⟨true, p⟩ } : WriterSlot).readers =
        s.readers ++ [p] := by
  simp only [readers, List.range_succ, List.map_append, List.map_cons, List.map_nil,
    Function.update_self, List.append_cancel_right_eq]
  refine List.map_congr_left fun i hi => ?_
  rw [Function.update_of_ne (List.mem_range.mp hi).ne]

theorem Ok.append (h : s.Ok) {p : Int} (new : p ∉ s.readers) (room : s.readerNum < maxReaderNum) :
    ({ s with
      readerNum := s.readerNum + 1
      readerSlots := Function.update s.readerSlots s.readerNum ⟨true, p⟩ } : WriterSlot).Ok := by
  refine ⟨fun i hi => ?_, ?_, room⟩
  · by_cases e : i = s.readerNum
    · subst e; simp
    · simp only at hi ⊢
      rw [Function.update_of_ne e]
      exact h.online i (by omega)
  · rw [readers_append]
    exact List.nodup_append.mpr ⟨h.nodup, List.nodup_singleton p, fun a ha b hb =>
      fun e => new (by rw [List.mem_singleton.mp hb] at e; exact e ▸ ha)⟩

/-- A reader slot that is in use is online already. -/
theorem Ok.online_again (h : s.Ok) {i : Nat} (hi : i < s.readerNum) :
    ({ s with
      readerSlots := Function.update s.readerSlots i
        { s.readerSlots i with isOnline := true } } : WriterSlot) = s := by
  have : ({ s.readerSlots i with isOnline := true } : ReaderSlot) = s.readerSlots i := by
    rw [← h.online i hi]
  rw [this, Function.update_eq_self]

end WriterSlot

namespace TopoData

variable {d : TopoData} {names : List Name} {name : Name}

@[simp] theorem setSlot_same (d : TopoData) (i : Nat) (slot : WriterSlot) :
    (d.setSlot i slot).writerSlotTable i = slot :=
  Function.update_self ..

theorem setSlot_of_ne (d : TopoData) {i j : Nat} (slot : WriterSlot) (h : j ≠ i) :
    (d.setSlot i slot).writerSlotTable j = d.writerSlotTable j :=
  Function.update_of_ne h ..

theorem setSlot_self (d : TopoData) (i : Nat) : d.setSlot i (d.writerSlotTable i) = d := by
  simp [setSlot]

/-- A slot is replaced by one with the same name. -/
theorem Holds.setSlot (h : d.Holds names) {w : Nat} {slot : WriterSlot}
    (field : slot.field = (d.writerSlotTable w).field) (ok : slot.Ok)
    (blank : names.length ≤ w → slot.readers = []) : (d.setSlot w slot).Holds names := by
  refine ⟨h.num, h.fits, fun v a ha => ?_, h.apart, fun v => ?_, fun v hv => ?_⟩ <;>
    by_cases e : v = w
  · subst e; rw [setSlot_same, field]; exact h.stored v a ha
  · rw [setSlot_of_ne _ _ e]; exact h.stored v a ha
  · subst e; rw [setSlot_same]; exact ok
  · rw [setSlot_of_ne _ _ e]; exact h.slots v
  · subst e; rw [setSlot_same]; exact blank hv
  · rw [setSlot_of_ne _ _ e]; exact h.blank v hv

/-- A slot whose name is alike is found. -/
theorem Holds.scan_name (h : d.Holds names) {w : Nat}
    (found : scan (fun i => (d.writerSlotTable i).field.isEquel name) d.writerNum = some w) :
    ∃ a, names[w]? = some a ∧ Alike a name := by
  obtain ⟨hw, eq⟩ := scan_some found
  rw [h.num] at hw
  have ha := List.getElem?_eq_getElem hw
  exact ⟨_, ha, (h.stored w _ ha name).mp eq⟩

theorem Holds.scan_new (h : d.Holds names)
    (none : scan (fun i => (d.writerSlotTable i).field.isEquel name) d.writerNum = none) :
    ∀ a ∈ names, ¬Alike a name := by
  intro a ha alike
  obtain ⟨w, hw⟩ := List.getElem?_of_mem ha
  have lt : w < d.writerNum := h.num ▸ (List.getElem?_eq_some_iff.mp hw).1
  have := scan_none.mp none w lt
  rw [(h.stored w a hw name).mpr alike] at this
  cases this

/-- What `RegisterWriterLocked` does: it finds the name, appends it, or there is no room. -/
theorem Holds.registerWriterLocked (h : d.Holds names) (fits : name.length ≤ maxDataNameLength) :
    (d.registerWriterLocked name = (d, -1) ∧ names.length = maxReaderNum ∧
      ∀ a ∈ names, ¬Alike a name) ∨
    ∃ (d' : TopoData) (w : Nat) (names' : List Name), d.registerWriterLocked name = (d', (w : Int)) ∧
      d'.Holds names' ∧ Registers names names' name w ∧
      ∀ v, (d'.writerSlotTable v).readers = (d.writerSlotTable v).readers := by
  unfold TopoData.registerWriterLocked
  split
  case h_1 w found =>
    obtain ⟨a, ha, alike⟩ := h.scan_name found
    exact Or.inr ⟨d, w, names, rfl, h, Or.inl ⟨a, ha, alike, rfl⟩, fun _ => rfl⟩
  case h_2 none =>
    have new := h.scan_new none
    split_ifs with full
    · exact Or.inl ⟨rfl, Nat.le_antisymm h.fits (h.num ▸ full), new⟩
    · have room : d.writerNum < maxReaderNum := not_le.mp full
      have readers : ∀ v, (Function.update d.writerSlotTable d.writerNum
          { d.writerSlotTable d.writerNum with
            field := ((d.writerSlotTable d.writerNum).field.setName name).1 } v).readers =
          (d.writerSlotTable v).readers := by
        intro v
        by_cases e : v = d.writerNum
        · subst e; simp [WriterSlot.readers]
        · simp [e]
      refine Or.inr ⟨_, d.writerNum, names ++ [name], rfl, ?_, Or.inr ⟨new, h.num, rfl⟩, readers⟩
      refine ⟨by simp [h.num], by simpa [← h.num] using Nat.succ_le_of_lt room, fun v a ha => ?_, ?_,
        fun v => ?_, fun v hv => ?_⟩
      · simp only [TopoData.setSlot]
        by_cases e : v = d.writerNum
        · subst e
          rw [h.num, List.getElem?_append_right le_rfl, Nat.sub_self] at ha
          cases ha
          rw [Function.update_self]
          exact NameField.isEquel_setName _ fits
        · have lt : v < names.length := by
            have := (List.getElem?_eq_some_iff.mp ha).1
            rw [List.length_append, List.length_singleton, ← h.num] at this
            have := h.num
            omega
          rw [List.getElem?_append_left lt] at ha
          rw [Function.update_of_ne e]
          exact h.stored v a ha
      · exact List.pairwise_append.mpr ⟨h.apart, List.pairwise_singleton _ _, fun a ha b hb =>
          List.mem_singleton.mp hb ▸ new a ha⟩
      · simp only [TopoData.setSlot]
        by_cases e : v = d.writerNum
        · subst e
          rw [Function.update_self]
          exact ⟨(h.slots _).online, (h.slots _).nodup, (h.slots _).fits⟩
        · rw [Function.update_of_ne e]; exact h.slots v
      · simp only [TopoData.setSlot, readers]
        exact h.blank v (by simp at hv; omega)

/-- What `RegisterWriter` does: it fails and changes nothing, or the name gets an index. -/
theorem Holds.registerWriter (h : d.Holds names) (name : Name) :
    (d.registerWriter name = (d, -1)) ∨
    ∃ (d' : TopoData) (w : Nat) (names' : List Name), d.registerWriter name = (d', (w : Int)) ∧
      d'.Holds names' ∧ Registers names names' name w ∧
      ∀ v, (d'.writerSlotTable v).readers = (d.writerSlotTable v).readers := by
  unfold TopoData.registerWriter
  split_ifs with long
  · exact Or.inl rfl
  · obtain ⟨eq, -⟩ | ⟨d', w, names', eq, holds, registers, readers⟩ :=
      h.registerWriterLocked (not_lt.mp long)
    · simp [eq]
    · right
      simp only [eq, Int.natCast_nonneg, if_true, Int.toNat_natCast]
      refine ⟨_, w, names', rfl, ?_, registers, fun v => ?_⟩
      · exact holds.setSlot rfl ⟨(holds.slots w).online, (holds.slots w).nodup, (holds.slots w).fits⟩
          (holds.blank w)
      · rw [← readers v]
        by_cases e : v = w
        · subst e; simp [WriterSlot.readers]
        · rw [setSlot_of_ne _ _ e]

/-- What `RegisterReaderLocked` does: it finds the process, appends it, or there is no
room. -/
theorem Holds.registerReaderLocked (h : d.Holds names) (p : Int) {w : Nat}
    (hw : w < names.length) :
    (d.registerReaderLocked p w = (d, -1) ∧ p ∉ (d.writerSlotTable w).readers) ∨
    ∃ (d' : TopoData) (r : Nat), d.registerReaderLocked p w = (d', (r : Int)) ∧ d'.Holds names ∧
      (d'.writerSlotTable w).readers[r]? = some p ∧
      (d'.writerSlotTable w).readers = (if p ∈ (d.writerSlotTable w).readers then
        (d.writerSlotTable w).readers else (d.writerSlotTable w).readers ++ [p]) ∧
      ∀ v ≠ w, (d'.writerSlotTable v).readers = (d.writerSlotTable v).readers := by
  unfold TopoData.registerReaderLocked
  simp only
  split
  case h_1 r found =>
    obtain ⟨hr, eq⟩ := scan_some found
    have at_ : (d.writerSlotTable w).readers[r]? = some p := by
      simp [WriterSlot.readers, hr, of_decide_eq_true eq]
    have mem : p ∈ (d.writerSlotTable w).readers := List.mem_of_getElem? at_
    exact Or.inr ⟨d, r, rfl, h, at_, (if_pos mem).symm, fun _ _ => rfl⟩
  case h_2 none =>
    have new : p ∉ (d.writerSlotTable w).readers := by
      intro mem
      obtain ⟨r, hr, eq⟩ := List.mem_map.mp mem
      have := scan_none.mp none r (List.mem_range.mp hr)
      simp [eq] at this
    split_ifs with full
    · exact Or.inl ⟨rfl, new⟩
    · have room := not_le.mp full
      refine Or.inr ⟨_, _, rfl, ?_, ?_, ?_, fun v hv => ?_⟩
      · exact h.setSlot rfl ((h.slots w).append new room) fun hle => absurd hle (not_le.mpr hw)
      · rw [setSlot_same, WriterSlot.readers_append,
          List.getElem?_append_right (WriterSlot.length_readers _).le, WriterSlot.length_readers,
          Nat.sub_self]
        rfl
      · rw [setSlot_same]
        exact (d.writerSlotTable w).readers_append p
      · rw [setSlot_of_ne _ _ hv]

/-- What `RegisterReader` does: it fails and changes nothing, or the name gets an index, and
then the process is one of the readers of the name unless there is no room for it. -/
theorem Holds.registerReader (h : d.Holds names) (p : Int) (name : Name) :
    (d.registerReader p name = (d, {})) ∨
    ∃ (d₁ : TopoData) (w : Nat) (names' : List Name), d₁.Holds names' ∧
      Registers names names' name w ∧
      (∀ v, (d₁.writerSlotTable v).readers = (d.writerSlotTable v).readers) ∧
      (d.registerReader p name = (d₁, ⟨w, -1⟩) ∨
        ∃ (d' : TopoData) (r : Nat), d.registerReader p name = (d', ⟨w, r⟩) ∧ d'.Holds names' ∧
          (d'.writerSlotTable w).readers[r]? = some p ∧
          (d'.writerSlotTable w).readers = (if p ∈ (d₁.writerSlotTable w).readers then
            (d₁.writerSlotTable w).readers else (d₁.writerSlotTable w).readers ++ [p]) ∧
          ∀ v ≠ w, (d'.writerSlotTable v).readers = (d₁.writerSlotTable v).readers) := by
  unfold TopoData.registerReader
  split_ifs with long
  · exact Or.inl rfl
  obtain ⟨eq, -⟩ | ⟨d₁, w, names', eq, holds, registers, readers⟩ :=
    h.registerWriterLocked (not_lt.mp long)
  · exact Or.inl (by simp [eq])
  have some : ¬(w : Int) = -1 := by omega
  refine Or.inr ⟨d₁, w, names', holds, registers, readers, ?_⟩
  simp only [eq, some, if_false, Int.toNat_natCast]
  obtain ⟨eq', -⟩ | ⟨d₂, r, eq', holds', at_, mine, others⟩ :=
    holds.registerReaderLocked p registers.lt
  · simp [eq']
  · right
    have hr : r < (d₂.writerSlotTable w).readerNum := by
      rw [← WriterSlot.length_readers]
      exact (List.getElem?_eq_some_iff.mp at_).1
    simp only [eq', Int.natCast_nonneg, if_true, Int.toNat_natCast,
      (holds'.slots w).online_again hr, setSlot_self]
    exact ⟨d₂, r, rfl, holds', at_, mine, others⟩

end TopoData

end Fuxi.Shm.Topo
