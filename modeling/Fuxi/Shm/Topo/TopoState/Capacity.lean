import Fuxi.Shm.Topo.TopoState.Registration

/-!
# When a registration is refused

The table of writers has `MAX_WRITER_NUM` slots, but `RegisterWriterLocked` bounds their number
by `MAX_READER_NUM`, the number of reader slots in each of them.
-/

namespace Fuxi.Shm.Topo

open Lib

/-- What a slot keeps of a name. -/
def stored (a : Name) : Nat × List UInt8 := (a.length, cString a)

/-- The processes in the reader slots of a name. -/
def TopoData.readersOf (d : TopoData) (name : Name) : List Int :=
  match scan (fun i => (d.writerSlotTable i).field.isEquel name) d.writerNum with
  | some w => (d.writerSlotTable w).readers
  | none => []

namespace TopoRun

/-- How many different names are registered; names that a slot cannot tell apart count once. -/
def registeredNum (s : TopoRun) : Nat := (s.registered.map stored).dedup.length

/-- What `RegisterWriter`, and `RegisterReader` for the writer, return for a new name. -/
def Answers (s : TopoRun) (idx : Int) : Prop :=
  if s.registeredNum < maxWriterNum then 0 ≤ idx else idx = -1

/-- A new name is refused only when the table of writers is full, and a new reader of a name
only when its reader slots are full. -/
structure RefusesWhenFull (s : TopoRun) (name : Name) : Prop where
  writer : name ∉ s.registered → s.Answers (s.data.registerWriter name).2
  readerWriter : name ∉ s.registered →
    ∀ p, s.Answers (s.data.registerReader p name).2.writerIdx
  reader : ∀ p, p ∉ s.data.readersOf name → (s.data.registerReader p name).2.readerIdx = -1 →
    (s.data.readersOf name).length = maxReaderNum

end TopoRun

/-! ## Names -/

theorem alike_iff {a b : Name} : Alike a b ↔ stored a = stored b := by
  simp [Alike, stored]

/-- A name without a NUL is alike to itself only. -/
theorem Alike.eq_of_clear {a b : Name} (h : Alike a b) (clear : 0 ∉ b) : a = b := by
  refine h.eq (fun mem => ?_) clear
  have whole : cString b = b := List.takeWhile_eq_self_iff.mpr fun x hx => by
    simpa using fun e : x = 0 => clear (e ▸ hx)
  have same : cString a = a := by
    refine (List.takeWhile_prefix _).eq_of_length ?_
    change (cString a).length = a.length
    rw [h.2, whole, h.1]
  have mem : (0 : UInt8) ∈ cString a := by
    rw [same]
    exact mem
  simpa using List.mem_takeWhile_imp mem

/-! ## One call -/

namespace TopoData

variable {d : TopoData} {names : List Name} {name : Name}

theorem Holds.readersOf_of_registers (h : d.Holds names) {names' : List Name} {w : Nat}
    (registers : Registers names names' name w) :
    d.readersOf name = (d.writerSlotTable w).readers := by
  unfold readersOf
  split
  case h_1 v found =>
    obtain ⟨a, ha, alike⟩ := h.scan_name found
    obtain ⟨b, hb, alike', -⟩ | ⟨new, -⟩ := registers
    · have same : v = w := by
        obtain ⟨lv, rfl⟩ := List.getElem?_eq_some_iff.mp ha
        obtain ⟨lw, rfl⟩ := List.getElem?_eq_some_iff.mp hb
        have apart := List.pairwise_iff_getElem.mp h.apart
        rcases lt_trichotomy v w with lt | eq | gt
        · exact (apart v w lv lw lt (alike.trans alike'.symm)).elim
        · exact eq
        · exact (apart w v lw lv gt (alike'.trans alike.symm)).elim
      rw [same]
    · exact (new a (List.mem_of_getElem? ha) alike).elim
  case h_2 none =>
    obtain ⟨a, ha, alike, -⟩ | ⟨-, rfl, -⟩ := registers
    · exact (h.scan_new none a (List.mem_of_getElem? ha) alike).elim
    · exact (h.blank _ le_rfl).symm

/-- A new name gets an index as long as there are fewer names than reader slots. -/
theorem Holds.registerWriterLocked_new (h : d.Holds names)
    (fits : name.length ≤ maxDataNameLength) (new : ∀ a ∈ names, ¬Alike a name) :
    if names.length < maxReaderNum then 0 ≤ (d.registerWriterLocked name).2
    else (d.registerWriterLocked name).2 = -1 := by
  obtain ⟨eq, full, -⟩ | ⟨d', w, names', eq, holds, registers, -⟩ := h.registerWriterLocked fits
  · rw [eq, if_neg (by omega)]
  · have room : names.length < maxReaderNum := by
      obtain ⟨a, ha, alike, -⟩ | ⟨-, -, rfl⟩ := registers
      · exact (new a (List.mem_of_getElem? ha) alike).elim
      · have := holds.fits
        simp only [List.length_append, List.length_singleton] at this
        omega
    rw [eq, if_pos room]
    exact Int.natCast_nonneg w

theorem registerWriter_idx (d : TopoData) (fits : name.length ≤ maxDataNameLength) :
    (d.registerWriter name).2 = (d.registerWriterLocked name).2 := by
  simp only [registerWriter, if_neg (not_lt.mpr fits)]
  split_ifs <;> rfl

theorem registerReader_writerIdx (d : TopoData) (p : Int)
    (fits : name.length ≤ maxDataNameLength) :
    (d.registerReader p name).2.writerIdx = (d.registerWriterLocked name).2 := by
  simp only [registerReader, if_neg (not_lt.mpr fits)]
  split_ifs with failed
  · exact failed.symm
  · rfl
  · rfl

/-- A new reader is refused only when there is no slot left for it. -/
theorem registerReaderLocked_refused {p : Int} {w : Nat}
    (refused : (d.registerReaderLocked p w).2 = -1) :
    maxReaderNum ≤ (d.writerSlotTable w).readerNum := by
  simp only [registerReaderLocked] at refused
  split at refused
  · simp only at refused
    omega
  · split_ifs at refused with full
    exact full

/-- `RegisterReader` refuses a reader because of its name, or because its reader slots are
full. -/
theorem Holds.registerReader_refused (h : d.Holds names) (p : Int)
    (fits : name.length ≤ maxDataNameLength)
    (refused : (d.registerReader p name).2.readerIdx = -1) :
    (d.registerWriterLocked name).2 = -1 ∨ (d.readersOf name).length = maxReaderNum := by
  obtain ⟨eq, -⟩ | ⟨d₁, w, names', eq, holds, registers, readers⟩ := h.registerWriterLocked fits
  · exact Or.inl (by rw [eq])
  · have some : ¬(w : Int) = -1 := by omega
    have locked : (d₁.registerReaderLocked p w).2 = -1 := by
      simp only [TopoData.registerReader, if_neg (not_lt.mpr fits), eq, some, if_false,
        Int.toNat_natCast] at refused
      split_ifs at refused with got
      · exact refused
      · exact refused
    have full := registerReaderLocked_refused locked
    have slots := (holds.slots w).fits
    have length := (d₁.writerSlotTable w).length_readers
    rw [readers w] at length
    rw [h.readersOf_of_registers registers]
    exact Or.inr (by omega)

/-- What a call does to the names. -/
theorem Holds.call_registers (h : d.Holds names) (c : TopoCall) :
    ∃ names', (d.call c).1.Holds names' ∧
      (names' = names ∧ (d.call c).2.writerIdx = -1 ∨
        ∃ w : Nat, (d.call c).2.writerIdx = w ∧ Registers names names' c.name w) := by
  cases c with
  | registerWriter p name =>
    simp only [TopoData.call]
    obtain eq | ⟨d', w, names', eq, holds, registers, -⟩ := h.registerWriter name
    · exact ⟨names, by rw [eq]; exact h, Or.inl ⟨rfl, by rw [eq]⟩⟩
    · exact ⟨names', by rw [eq]; exact holds, Or.inr ⟨w, by rw [eq], registers⟩⟩
  | registerReader p name =>
    simp only [TopoData.call]
    obtain eq | ⟨d₁, w, names', holds, registers, -, outcome⟩ := h.registerReader p name
    · exact ⟨names, by rw [eq]; exact h, Or.inl ⟨rfl, by rw [eq]⟩⟩
    · obtain eq | ⟨d', r, eq, holds', -⟩ := outcome
      · exact ⟨names', by rw [eq]; exact holds, Or.inr ⟨w, by rw [eq], registers⟩⟩
      · exact ⟨names', by rw [eq]; exact holds', Or.inr ⟨w, by rw [eq], registers⟩⟩

end TopoData

/-! ## Runs -/

namespace TopoRun

variable {s : TopoRun} {names : List Name}

/-- The table holds the registered names, of names that are alike one. -/
structure Named (s : TopoRun) (names : List Name) : Prop where
  holds : s.data.Holds names
  got : ∀ a ∈ names, a ∈ s.registered
  kept : ∀ a ∈ s.registered, ∃ b ∈ names, Alike b a

theorem mem_registered {a : Name} :
    a ∈ s.registered ↔ ∃ r ∈ s.returned, r.2.writerIdx ≠ -1 ∧ r.1.name = a := by
  simp only [registered, List.mem_dedup, List.mem_map, List.mem_filter, decide_eq_true_eq,
    and_assoc]

theorem mem_registered_next {c : TopoCall} {a : Name} : a ∈ (s.next c).registered ↔
    a ∈ s.registered ∨ (s.data.call c).2.writerIdx ≠ -1 ∧ c.name = a := by
  simp only [mem_registered, TopoRun.next, List.mem_cons, exists_eq_or_imp]
  exact or_comm

theorem Named.of_call (h : s.Named names) {c : TopoCall} {names' : List Name}
    (holds : (s.data.call c).1.Holds names')
    (outcome : names' = names ∧ (s.data.call c).2.writerIdx = -1 ∨
      ∃ w : Nat, (s.data.call c).2.writerIdx = w ∧ Registers names names' c.name w) :
    (s.next c).Named names' := by
  obtain ⟨rfl, failed⟩ | ⟨w, got, registers⟩ := outcome
  · refine ⟨holds, fun a ha => mem_registered_next.mpr (Or.inl (h.got a ha)), fun a ha => ?_⟩
    obtain old | ⟨some, -⟩ := mem_registered_next.mp ha
    · exact h.kept a old
    · exact (some failed).elim
  · have some : (s.data.call c).2.writerIdx ≠ -1 := by omega
    have grown : (∀ a ∈ names', a ∈ names ∨ a = c.name) ∧ (∀ a ∈ names, a ∈ names') ∧
        ∃ b ∈ names', Alike b c.name := by
      obtain ⟨a, ha, alike, rfl⟩ | ⟨-, -, rfl⟩ := registers
      · exact ⟨fun _ h => Or.inl h, fun _ h => h, a, List.mem_of_getElem? ha, alike⟩
      · exact ⟨by simp, by simp +contextual, c.name, by simp, Alike.refl _⟩
    refine ⟨holds, fun a ha => mem_registered_next.mpr ?_, fun a ha => ?_⟩
    · exact (grown.1 a ha).imp (h.got a) fun e => ⟨some, e.symm⟩
    · obtain old | ⟨-, rfl⟩ := mem_registered_next.mp ha
      · obtain ⟨b, hb, alike⟩ := h.kept a old
        exact ⟨b, grown.2.1 b hb, alike⟩
      · exact grown.2.2

theorem named_of_reach (h : machine.Reach Machine.free s) : ∃ names, s.Named names := by
  induction h with
  | start h =>
    obtain rfl := h
    exact ⟨[], TopoData.holds_start, by simp, by simp [registered]⟩
  | step _ move _ ih =>
    obtain ⟨names, named⟩ := ih
    cases move
    obtain ⟨names', holds, outcome⟩ := named.holds.call_registers _
    exact ⟨names', named.of_call holds outcome⟩

/-- The table has as many names as there are registered ones that it can tell apart. -/
theorem Named.registeredNum (h : s.Named names) : s.registeredNum = names.length := by
  have nodup : (names.map stored).Nodup := by
    refine List.pairwise_map.mpr (h.holds.apart.imp ?_)
    exact fun ne eq => ne (alike_iff.mpr eq)
  have perm : (s.registered.map stored).dedup.Perm (names.map stored) := by
    refine (List.perm_ext_iff_of_nodup (List.nodup_dedup _) nodup).mpr fun x => ?_
    simp only [List.mem_dedup, List.mem_map]
    constructor
    · rintro ⟨a, ha, rfl⟩
      obtain ⟨b, hb, alike⟩ := h.kept a ha
      exact ⟨b, hb, alike_iff.mp alike⟩
    · rintro ⟨a, ha, rfl⟩
      exact ⟨a, h.got a ha, rfl⟩
  rw [TopoRun.registeredNum, perm.length_eq, List.length_map]

/-- In every run, a proper name is answered as the two tables promise exactly if it is
registered already or there are fewer than `MAX_READER_NUM` names. -/
theorem refusesWhenFull_iff_of_reach (h : machine.Reach Machine.free s) {name : Name}
    (clear : 0 ∉ name) (fits : name.length ≤ maxDataNameLength) :
    s.RefusesWhenFull name ↔ (name ∉ s.registered → s.registeredNum < maxReaderNum) := by
  obtain ⟨names, named⟩ := named_of_reach h
  have num := named.registeredNum
  have new : name ∉ s.registered → ∀ a ∈ names, ¬Alike a name := fun missing a ha alike =>
    missing (alike.eq_of_clear clear ▸ named.got a ha)
  have small : s.registeredNum < maxWriterNum := by
    rw [num]
    exact named.holds.fits.trans_lt (by decide)
  have locked : name ∉ s.registered →
      if s.registeredNum < maxReaderNum then 0 ≤ (s.data.registerWriterLocked name).2
      else (s.data.registerWriterLocked name).2 = -1 := by
    rw [num]
    exact fun missing => named.holds.registerWriterLocked_new fits (new missing)
  constructor
  · intro full missing
    by_contra many
    have answer := full.writer missing
    rw [Answers, if_pos small, s.data.registerWriter_idx fits] at answer
    have refused := locked missing
    rw [if_neg many] at refused
    omega
  · intro room
    have accepted : name ∉ s.registered → 0 ≤ (s.data.registerWriterLocked name).2 :=
      fun missing => by simpa [room missing] using locked missing
    refine ⟨fun missing => ?_, fun missing p => ?_, fun p _ refused => ?_⟩
    · rw [Answers, if_pos small, s.data.registerWriter_idx fits]
      exact accepted missing
    · rw [Answers, if_pos small, s.data.registerReader_writerIdx p fits]
      exact accepted missing
    · refine (named.holds.registerReader_refused p fits refused).resolve_left fun failed => ?_
      by_cases missing : name ∉ s.registered
      · have := accepted missing
        omega
      · obtain ⟨b, hb, alike⟩ := named.kept name (not_not.mp missing)
        obtain ⟨-, -, none⟩ | ⟨d', w, -, eq, -⟩ := named.holds.registerWriterLocked fits
        · exact none b hb alike
        · rw [eq] at failed
          simp only at failed
          omega

/-- Two names, and two readers of the first one. -/
theorem refusesWhenFull_iff_of_reach_twoReaders :
    ∃ s, machine.run {} twoReaders = some s ∧ s.registeredNum = 2 ∧
      s.data.readersOf [97] = [0, 1] ∧ s.RefusesWhenFull [97] ∧ s.RefusesWhenFull [99] := by
  have seen : (machine.run {} twoReaders).map
      (fun s => (s.registeredNum, s.data.readersOf [97])) = some (2, [0, 1]) := by decide +kernel
  obtain ⟨s, run, seen⟩ := Option.map_eq_some_iff.mp seen
  obtain ⟨num, readers⟩ := Prod.mk.inj seen
  have reach : machine.Reach Machine.free s := .of_run (.start rfl) run
  have few : s.registeredNum < maxReaderNum := by
    rw [num]
    decide
  exact ⟨s, run, num, readers,
    (refusesWhenFull_iff_of_reach reach (by decide) (by decide)).mpr fun _ => few,
    (refusesWhenFull_iff_of_reach reach (by decide) (by decide)).mpr fun _ => few⟩

/-- As long as there is room, a new name is appended. -/
theorem Named.append (h : s.Named names) (p : Int) {name : Name}
    (fits : name.length ≤ maxDataNameLength) (new : ∀ a ∈ names, ¬Alike a name)
    (room : names.length < maxReaderNum) :
    (s.next (.registerWriter p name)).Named (names ++ [name]) := by
  obtain ⟨names', holds, outcome⟩ := h.holds.call_registers (.registerWriter p name)
  have accepted := h.holds.registerWriterLocked_new fits new
  rw [if_pos room, ← s.data.registerWriter_idx fits] at accepted
  have appended : names' = names ++ [name] := by
    obtain ⟨-, failed⟩ | ⟨w, -, ⟨a, at_, alike, -⟩ | ⟨-, -, eq⟩⟩ := outcome
    · simp only [TopoData.call] at failed
      omega
    · exact (new a (List.mem_of_getElem? at_) alike).elim
    · exact eq
  rw [← appended]
  exact h.of_call holds outcome

/-- Different names are all registered as long as there are reader slots as many as names. -/
theorem Named.registerAll (h : s.Named names) (more : List Name)
    (proper : ∀ a ∈ more, 0 ∉ a ∧ a.length ≤ maxDataNameLength) (nodup : (names ++ more).Nodup)
    (few : (names ++ more).length ≤ maxReaderNum) :
    ∃ s', machine.run s (more.map (.registerWriter 0)) = some s' ∧ s'.Named (names ++ more) := by
  induction more generalizing s names with
  | nil =>
    refine ⟨s, rfl, ?_⟩
    rwa [List.append_nil]
  | cons name more ih =>
    obtain ⟨clear, fits⟩ := proper name List.mem_cons_self
    have split : names ++ name :: more = names ++ [name] ++ more := by simp
    have new : ∀ a ∈ names, ¬Alike a name := fun a ha alike =>
      (List.nodup_append.mp nodup).2.2 a ha name List.mem_cons_self (alike.eq_of_clear clear)
    rw [List.length_append, List.length_cons] at few
    have next := h.append 0 fits new (by omega)
    rw [split] at nodup ⊢
    refine ih next (fun a ha => proper a (List.mem_cons_of_mem name ha)) nodup ?_
    rw [List.length_append, List.length_append, List.length_singleton]
    omega

/-- As many writers as a name can have readers. -/
def manyWriters : List TopoCall :=
  (List.range maxReaderNum).map fun i => .registerWriter 0 [UInt8.ofNat (i + 1)]

/-- The next name is refused, although the table has `MAX_WRITER_NUM` slots. -/
theorem registerWriter_refuses_early :
    ∃ s, machine.run {} manyWriters = some s ∧ s.registeredNum = maxReaderNum ∧
      (s.data.registerWriter [200]).2 = -1 ∧ ¬s.RefusesWhenFull [200] := by
  obtain ⟨names, many, length, nodup, proper⟩ : ∃ names : List Name,
      manyWriters = names.map (.registerWriter 0) ∧ names.length = maxReaderNum ∧ names.Nodup ∧
        ∀ a ∈ names, 0 ∉ a ∧ a.length ≤ maxDataNameLength ∧ a ≠ [200] := by
    refine ⟨(List.range maxReaderNum).map fun i => [UInt8.ofNat (i + 1)], ?_, ?_, ?_, ?_⟩
    · rw [manyWriters, List.map_map]
      rfl
    · rw [List.length_map, List.length_range]
    · refine List.nodup_range.map_on fun i hi j hj eq => ?_
      have same := congrArg UInt8.toNat (List.singleton_inj.mp eq)
      simp only [UInt8.toNat_ofNat', List.mem_range, maxReaderNum] at same hi hj
      omega
    · simp only [List.forall_mem_map, List.mem_range]
      decide +kernel
  have start : Named {} [] := ⟨TopoData.holds_start, by simp, by simp [registered]⟩
  obtain ⟨s, run, named⟩ := start.registerAll names
    (fun a ha => ⟨(proper a ha).1, (proper a ha).2.1⟩) nodup length.le
  rw [List.nil_append] at named
  have num : s.registeredNum = maxReaderNum := named.registeredNum.trans length
  have new : ∀ a ∈ names, ¬Alike a [200] := fun a ha alike =>
    (proper a ha).2.2 (alike.eq_of_clear (by decide))
  have missing : [200] ∉ s.registered := fun mem => by
    obtain ⟨a, ha, alike⟩ := named.kept _ mem
    exact new a ha alike
  have refused : (s.data.registerWriter [200]).2 = -1 := by
    have locked := named.holds.registerWriterLocked_new (by decide) new
    rwa [if_neg (by omega), ← s.data.registerWriter_idx (by decide)] at locked
  rw [many]
  refine ⟨s, run, num, refused, fun full => ?_⟩
  have answer := full.writer missing
  rw [Answers, num, if_pos (by decide), refused] at answer
  omega

end TopoRun

end Fuxi.Shm.Topo
