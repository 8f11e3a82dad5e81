import Mathlib.Data.List.Dedup
import Fuxi.Lib.Machine
import Fuxi.Shm.Impl.Segment
import Fuxi.Shm.Topo.TopoState

/-!
# `GetSegment`

A domain numbers the names of its segments in the order in which they are asked for first.
The number of the name gives a segment its address, and the channel gives it its key.
-/

namespace Fuxi.Shm

open Lib Topo Impl

/-! ## `SegmentIndicatorTable` -/

def maxSegmentNum : Nat := 1024
def shmSegmentdataBaseAddr : Nat := 0x520000000000
def shmMaxSegmentSize : Nat := 0x100000000

structure SegmentIndicator where
  field : NameField := {}
  index : Nat := 0

structure SegmentIndicatorTable where
  segmentNum : Nat := 0
  indicatorTable : Nat → SegmentIndicator := fun _ => {}

/-- `RegisterSegment`, or `none` if it writes behind the table. -/
def SegmentIndicatorTable.registerSegment (t : SegmentIndicatorTable) (name : Name) :
    Option (SegmentIndicatorTable × Nat) :=
  match scan (fun i => (t.indicatorTable i).field.isEquel name) t.segmentNum with
  | some i => some (t, i)
  | none =>
    let idx := t.segmentNum
    if maxSegmentNum ≤ idx then none
    else
      let entry := t.indicatorTable idx
      some (⟨u16 (idx + 1), Function.update t.indicatorTable idx
        ⟨(entry.field.setName name).1, idx⟩⟩, idx)

/-! ## `XsiSegment` -/

/-- `SegmentOption` with the fields that identify the segment. -/
structure SegmentRequest extends SegmentOption where
  name : Name
  channelId : Nat := 0
  domainId : Int := 0

/-- An `XsiSegment` object before it is opened. -/
structure XsiSegment extends Segment where
  path : String
  key : Int := -1

namespace XsiSegment

def construct (p : Platform) (opt : SegmentRequest) : XsiSegment where
  toSegment := Segment.construct p opt.toSegmentOption
  path := "/tmp/" ++ toString opt.domainId ++ "/" ++ toString opt.channelId

/-- The key with which `OpenOrCreate` and `OpenOnly` call `shmget`. -/
def openKey (hash : String → Nat) (s : XsiSegment) : Int :=
  if s.key = -1 then i32 (hash s.path) else s.key

def totalSegmentSpaceSize (s : XsiSegment) : Nat := s.opt.spaceSize

/-- The addresses that the segment will be mapped at. -/
def range (s : XsiSegment) : Region := ⟨s.opt.baseAddr, s.totalSegmentSpaceSize⟩

end XsiSegment

/-! ## Runs -/

/-- The segments of a domain, the latest one first. -/
structure SegmentRun where
  table : SegmentIndicatorTable := {}
  given : List (SegmentRequest × XsiSegment) := []

namespace SegmentRun

/-- `GetSegment` of any process of the domain. -/
def getSegment (p : Platform) (s : SegmentRun) (opt : SegmentRequest) : Option SegmentRun := do
  let (table, idx) ← s.table.registerSegment opt.name
  let segAddr := u64 (shmSegmentdataBaseAddr + idx * shmMaxSegmentSize)
  return ⟨table, (opt, .construct p { opt with baseAddr := segAddr }) :: s.given⟩

def machine (p : Platform) : Machine SegmentRun SegmentRequest where
  start s := s = {}
  step s opt := s.getSegment p opt

/-- The different names, in the order in which they were asked for first. -/
def asked (s : SegmentRun) : List Name := (s.given.map fun r => r.1.name).dedup.reverse

/-- The position of a name among them. -/
def order (s : SegmentRun) (name : Name) : Nat := s.asked.idxOf name

/-- The name fits into an entry, and there are fewer names than entries. -/
def Fits (opt : SegmentRequest) (t : SegmentRun) : Prop :=
  opt.name.length ≤ maxDataNameLength ∧ t.asked.length < maxSegmentNum

instance (opt : SegmentRequest) (t : SegmentRun) : Decidable (Fits opt t) :=
  inferInstanceAs (Decidable (_ ∧ _))

end SegmentRun

/-! ## The table -/

namespace SegmentIndicatorTable

/-- The table holds these names, in the order of their registration. -/
structure Holds (t : SegmentIndicatorTable) (names : List Name) : Prop where
  num : t.segmentNum = names.length
  fits : names.length ≤ maxSegmentNum
  stored : ∀ i a, names[i]? = some a →
    ∀ b, (t.indicatorTable i).field.isEquel b = true ↔ Alike a b
  index : ∀ i < names.length, (t.indicatorTable i).index = i
  apart : names.Pairwise fun a b => ¬Alike a b

theorem holds_start : ({} : SegmentIndicatorTable).Holds [] where
  num := rfl
  fits := Nat.zero_le _
  stored := fun i a h => by simp at h
  index := fun i h => absurd h (Nat.not_lt_zero i)
  apart := List.Pairwise.nil

variable {t t' : SegmentIndicatorTable} {names : List Name} {name : Name} {idx : Nat}

/-- What `RegisterSegment` does: it finds the name or appends it. -/
theorem Holds.registerSegment (h : t.Holds names) (fits : name.length ≤ maxDataNameLength)
    (ret : t.registerSegment name = some (t', idx)) :
    ∃ names', t'.Holds names' ∧ Registers names names' name idx := by
  unfold SegmentIndicatorTable.registerSegment at ret
  split at ret
  case h_1 i found =>
    cases ret
    obtain ⟨hi, eq⟩ := scan_some found
    rw [h.num] at hi
    have ha := List.getElem?_eq_getElem hi
    exact ⟨names, h, Or.inl ⟨_, ha, (h.stored _ _ ha name).mp eq, rfl⟩⟩
  case h_2 missing =>
    simp only at ret
    split_ifs at ret with full
    cases ret
    have room : names.length < maxSegmentNum := h.num ▸ not_le.mp full
    have new : ∀ a ∈ names, ¬Alike a name := by
      intro a ha alike
      obtain ⟨i, hi⟩ := List.getElem?_of_mem ha
      have lt : i < t.segmentNum := h.num ▸ (List.getElem?_eq_some_iff.mp hi).1
      have := scan_none.mp missing i lt
      rw [(h.stored i a hi name).mpr alike] at this
      cases this
    refine ⟨names ++ [name], ⟨?_, ?_, fun i a ha => ?_, fun i hi => ?_, ?_⟩,
      Or.inr ⟨new, h.num, rfl⟩⟩
    · have table : maxSegmentNum = 1024 := rfl
      have small : names.length + 1 < 65536 := by omega
      rw [h.num, List.length_append, List.length_singleton]
      exact Nat.mod_eq_of_lt small
    · simpa using Nat.succ_le_of_lt room
    · by_cases e : i = t.segmentNum
      · subst e
        rw [h.num, List.getElem?_append_right le_rfl, Nat.sub_self] at ha
        cases ha
        simpa using NameField.isEquel_setName _ fits
      · rw [h.num] at e
        have lt : i < names.length := by
          have := (List.getElem?_eq_some_iff.mp ha).1
          rw [List.length_append, List.length_singleton] at this
          omega
        rw [List.getElem?_append_left lt] at ha
        simpa [h.num, e] using h.stored i a ha
    · by_cases e : i = t.segmentNum
      · subst e; simp
      · rw [List.length_append, List.length_singleton] at hi
        rw [h.num] at e
        simpa [h.num, e] using h.index i (by omega)
    · exact List.pairwise_append.mpr ⟨h.apart, List.pairwise_singleton _ _, fun a ha b hb =>
        List.mem_singleton.mp hb ▸ new a ha⟩

/-- While there is room, `RegisterSegment` does not write behind the table. -/
theorem Holds.registerSegment_isSome (h : t.Holds names) (room : names.length < maxSegmentNum)
    (name : Name) : (t.registerSegment name).isSome = true := by
  unfold SegmentIndicatorTable.registerSegment
  split
  · rfl
  · rw [h.num, if_neg (not_le.mpr room)]
    rfl

end SegmentIndicatorTable

/-! ## The invariant -/

namespace SegmentRun

/-- The address of the segment with a number. -/
def segAddr (idx : Nat) : Nat := shmSegmentdataBaseAddr + idx * shmMaxSegmentSize

/-- The table holds names that were asked for, and every segment lies at the address of
a name in the table that is alike. -/
structure Inv (p : Platform) (s : SegmentRun) (names : List Name) : Prop where
  holds : s.table.Holds names
  mem : ∀ a ∈ names, a ∈ s.asked
  given : ∀ r ∈ s.given, ∃ i a, names[i]? = some a ∧ Alike a r.1.name ∧
    r.2 = .construct p { r.1 with baseAddr := segAddr i }

variable {p : Platform} {s t : SegmentRun} {names : List Name} {opt : SegmentRequest}

theorem asked_cons (table : SegmentIndicatorTable) (s : SegmentRun) (opt : SegmentRequest)
    (seg : XsiSegment) : (SegmentRun.mk table ((opt, seg) :: s.given)).asked =
      if opt.name ∈ s.asked then s.asked else s.asked ++ [opt.name] := by
  simp only [asked, List.map_cons, List.mem_reverse, List.mem_dedup]
  split_ifs with mem
  · rw [List.dedup_cons_of_mem mem]
  · rw [List.dedup_cons_of_notMem mem, List.reverse_cons]

theorem mem_asked {a : Name} : a ∈ s.asked ↔ ∃ r ∈ s.given, r.1.name = a := by
  simp [asked]

theorem given_of_getSegment (ret : s.getSegment p opt = some t) :
    ∃ seg, t.given = (opt, seg) :: s.given := by
  simp only [SegmentRun.getSegment, Option.bind_eq_bind, Option.bind_eq_some_iff] at ret
  obtain ⟨⟨table, idx⟩, -, eq⟩ := ret
  cases eq
  exact ⟨_, rfl⟩

/-- There are at most as many names in the table as there were asked for. -/
theorem Inv.length_le (h : s.Inv p names) : names.length ≤ s.asked.length := by
  have nodup : names.Nodup := by
    refine h.holds.apart.imp ?_
    rintro a _ ne rfl
    exact ne (Alike.refl a)
  exact (List.subperm_of_subset nodup h.mem).length_le

theorem segAddr_eq {i : Nat} (h : i < maxSegmentNum) :
    u64 (shmSegmentdataBaseAddr + i * shmMaxSegmentSize) = segAddr i := by
  refine u64_of_lt ?_
  simp only [maxSegmentNum, shmSegmentdataBaseAddr, shmMaxSegmentSize] at h ⊢
  omega

/-- `GetSegment` on a name that fits. -/
theorem Inv.getSegment (h : s.Inv p names) (fits : opt.name.length ≤ maxDataNameLength)
    (ret : s.getSegment p opt = some t) :
    ∃ names' i, t.Inv p names' ∧ Registers names names' opt.name i ∧
      t.asked = if opt.name ∈ s.asked then s.asked else s.asked ++ [opt.name] := by
  simp only [SegmentRun.getSegment, Option.bind_eq_bind, Option.bind_eq_some_iff] at ret
  obtain ⟨⟨table, idx⟩, reg, eq⟩ := ret
  cases eq
  obtain ⟨names', holds, registers⟩ := h.holds.registerSegment fits reg
  have lt : idx < maxSegmentNum := registers.lt.trans_le holds.fits
  have seg : u64 (shmSegmentdataBaseAddr + idx * shmMaxSegmentSize) = segAddr idx :=
    segAddr_eq lt
  rw [seg]
  refine ⟨names', idx, ⟨holds, fun a ha => ?_, fun r hr => ?_⟩, registers, asked_cons ..⟩
  · have new : a ∈ names ∨ a = opt.name := by
      obtain ⟨-, -, -, rfl⟩ | ⟨-, -, rfl⟩ := registers
      · exact Or.inl ha
      · simpa using ha
    rw [mem_asked]
    obtain old | rfl := new
    · obtain ⟨r, hr, eq⟩ := mem_asked.mp (h.mem a old)
      exact ⟨r, List.mem_cons_of_mem _ hr, eq⟩
    · exact ⟨_, List.mem_cons_self, rfl⟩
  · obtain rfl | old := List.mem_cons.mp hr
    · obtain ⟨a, ha, alike, rfl⟩ | ⟨-, rfl, rfl⟩ := registers
      · exact ⟨idx, a, ha, alike, rfl⟩
      · exact ⟨names.length, opt.name, by simp, Alike.refl _, rfl⟩
    · obtain ⟨i, a, ha, alike, eq⟩ := h.given r old
      refine ⟨i, a, ?_, alike, eq⟩
      obtain ⟨-, -, -, rfl⟩ | ⟨-, -, rfl⟩ := registers
      · exact ha
      · rw [List.getElem?_append_left (List.getElem?_eq_some_iff.mp ha).1]
        exact ha

/-- While there are fewer names than entries, `GetSegment` returns a segment. -/
theorem Inv.getSegment_isSome (h : s.Inv p names) (room : s.asked.length < maxSegmentNum)
    (opt : SegmentRequest) : (s.getSegment p opt).isSome = true := by
  have some := h.holds.registerSegment_isSome (h.length_le.trans_lt room) opt.name
  obtain ⟨r, hr⟩ := Option.isSome_iff_exists.mp some
  simp [SegmentRun.getSegment, hr]

/-- In every run of names that fit, while there are fewer names than entries. -/
theorem inv_of_reach (h : (machine p).Reach (fun _ opt t => Fits opt t) s) :
    ∃ names, s.Inv p names := by
  induction h with
  | start h =>
    exact ⟨[], h ▸ ⟨SegmentIndicatorTable.holds_start, by simp, by simp⟩⟩
  | step _ move side ih =>
    obtain ⟨names, inv⟩ := ih
    obtain ⟨names', -, inv', -⟩ := inv.getSegment side.1 move
    exact ⟨names', inv'⟩

/-! ## The addresses -/

/-- Names without a NUL, and sizes up to the limit. -/
def proper : SegmentRun → SegmentRequest → SegmentRun → Prop := fun _ opt t =>
  0 ∉ opt.name ∧ opt.spaceSize ≤ shmMaxSegmentSize ∧ Fits opt t

instance (s : SegmentRun) (opt : SegmentRequest) (t : SegmentRun) : Decidable (proper s opt t) :=
  inferInstanceAs (Decidable (_ ∧ _ ∧ _))

/-- The space of the one with its guard pages ends in front of the name of the other, if that
was asked for later. -/
def Roomy (p : Platform) (s : SegmentRun) (opt opt' : SegmentRequest) : Prop :=
  s.order opt.name < s.order opt'.name →
    opt.spaceSize + 2 * p.pageSize ≤
      (s.order opt'.name - s.order opt.name) * shmMaxSegmentSize

instance (p : Platform) (s : SegmentRun) (opt opt' : SegmentRequest) :
    Decidable (Roomy p s opt opt') := inferInstanceAs (Decidable (_ → _))

/-- The invariant of these runs: the table holds the names that were asked for. -/
structure Clear (p : Platform) (s : SegmentRun) : Prop where
  inv : s.Inv p s.asked
  clear : ∀ r ∈ s.given, 0 ∉ r.1.name
  sized : ∀ r ∈ s.given, r.1.spaceSize ≤ shmMaxSegmentSize

theorem clear_of_reach (h : (machine p).Reach proper s) : s.Clear p := by
  induction h with
  | start h => exact h ▸ ⟨⟨SegmentIndicatorTable.holds_start, by simp, by simp⟩, by simp, by simp⟩
  | @step s t opt _ move side ih =>
    obtain ⟨clear, small, fits, -⟩ := side
    obtain ⟨names', i, inv', registers, asked⟩ := ih.inv.getSegment fits move
    have names : names' = t.asked := by
      rw [asked]
      obtain ⟨a, ha, alike, rfl⟩ | ⟨new, -, rfl⟩ := registers
      · have mem := List.mem_of_getElem? ha
        obtain ⟨r, hr, rfl⟩ := mem_asked.mp mem
        rw [← alike.eq (ih.clear r hr) clear, if_pos mem]
      · rw [if_neg fun mem => new _ mem (Alike.refl _)]
    obtain ⟨seg, given⟩ := given_of_getSegment move
    refine ⟨names ▸ inv', ?_, ?_⟩ <;> rw [given] <;> intro r hr <;>
      obtain rfl | old := List.mem_cons.mp hr
    · exact clear
    · exact ih.clear r old
    · exact small
    · exact ih.sized r old

/-- A segment lies at the address of the position of its name. -/
theorem Clear.placed (h : s.Clear p) {r : SegmentRequest × XsiSegment} (hr : r ∈ s.given) :
    r.2 = .construct p { r.1 with baseAddr := segAddr (s.order r.1.name) } ∧
      s.order r.1.name < maxSegmentNum := by
  obtain ⟨i, a, ha, alike, eq⟩ := h.inv.given r hr
  obtain ⟨r', hr', rfl⟩ := mem_asked.mp (List.mem_of_getElem? ha)
  rw [alike.eq (h.clear r' hr') (h.clear r hr)] at ha
  obtain ⟨lt, at_⟩ := List.getElem?_eq_some_iff.mp ha
  have nodup : s.asked.Nodup := List.nodup_reverse.mpr (List.nodup_dedup _)
  have pos : s.order r.1.name = i := by rw [order, ← at_, nodup.idxOf_getElem]
  rw [pos]
  exact ⟨eq, lt.trans_le h.inv.holds.fits⟩

/-- The addresses of a segment. -/
theorem Clear.range (h : s.Clear p) {r : SegmentRequest × XsiSegment} (hr : r ∈ s.given) :
    r.2.range = ⟨segAddr (s.order r.1.name), r.1.spaceSize + 2 * p.pageSize⟩ := by
  have small := h.sized r hr
  have page := p.pageSize_small
  rw [(h.placed hr).1]
  simp only [XsiSegment.range, XsiSegment.construct, XsiSegment.totalSegmentSpaceSize,
    Segment.construct, Segment.segmentProtectionSapceSize]
  simp only [shmMaxSegmentSize] at small
  rw [u64_of_lt (x := p.pageSize * 2) (by omega), u64_of_lt (by omega), Nat.mul_comm]

/-- In every run, equal names get the same address, and the address ranges of two segments
with different names are disjoint exactly when each of the two ends in front of the other if
its name was asked for earlier. -/
theorem range_apart_iff_of_reach (paged : 0 < p.pageSize) (h : (machine p).Reach proper s) :
    ∀ r ∈ s.given, ∀ r' ∈ s.given,
      (r.1.name = r'.1.name → r.2.opt.baseAddr = r'.2.opt.baseAddr) ∧
      (r.1.name ≠ r'.1.name →
        (r.2.range.Apart r'.2.range ↔ Roomy p s r.1 r'.1 ∧ Roomy p s r'.1 r.1)) := by
  intro r hr r' hr'
  have inv := clear_of_reach h
  refine ⟨fun same => ?_, fun ne => ?_⟩
  · rw [(inv.placed hr).1, (inv.placed hr').1, same]
    rfl
  · have differ : s.order r.1.name ≠ s.order r'.1.name := by
      intro eq
      exact ne ((List.idxOf_inj (mem_asked.mpr ⟨r, hr, rfl⟩)).mp eq)
    rw [inv.range hr, inv.range hr', Region.apart_iff (by simp only; omega) (by simp only; omega)]
    simp only [Region.stop, segAddr, Roomy, shmMaxSegmentSize]
    omega

/-- Two segments of a megabyte, and the name of the first one again. -/
def twoNames : List SegmentRequest :=
  [{ name := [97], spaceSize := 1048576 }, { name := [98], spaceSize := 1048576 },
    { name := [97], spaceSize := 4096 }]

/-- Three calls for two names. -/
theorem range_apart_iff_of_reach_twoNames :
    ∃ s, (machine Segment.linux).run {} twoNames = some s ∧
      s.given.map (fun r => r.2.opt.baseAddr) =
        [0x520000000000, 0x520100000000, 0x520000000000] ∧
      ∀ r ∈ s.given, ∀ r' ∈ s.given,
        (r.1.name = r'.1.name → r.2.opt.baseAddr = r'.2.opt.baseAddr) ∧
        (r.1.name ≠ r'.1.name →
          (r.2.range.Apart r'.2.range ↔
            Roomy Segment.linux s r.1 r'.1 ∧ Roomy Segment.linux s r'.1 r.1)) := by
  have along : (machine Segment.linux).Along proper {} twoNames := by decide +kernel
  have seen : ((machine Segment.linux).run {} twoNames).map
      (fun s => s.given.map fun r => r.2.opt.baseAddr) =
        some [0x520000000000, 0x520100000000, 0x520000000000] := by decide +kernel
  obtain ⟨s, run, reach, seen⟩ := Machine.Reach.of_along_seen (.start rfl) along seen
  exact ⟨s, run, seen, range_apart_iff_of_reach (by decide) reach⟩

/-- A segment of the maximal size, and the segment of the next name. -/
def fullSize : List SegmentRequest :=
  [{ name := [97], spaceSize := 0x100000000 }, { name := [98], spaceSize := 4096 }]

/-- The guard pages of the first one reach into the second one. -/
theorem range_overlap :
    ∃ s, (machine Segment.linux).Reach proper s ∧ ∃ r ∈ s.given, ∃ r' ∈ s.given,
      r.1.name ≠ r'.1.name ∧ ¬r.2.range.Apart r'.2.range := by
  have along : (machine Segment.linux).Along proper {} fullSize := by decide +kernel
  obtain ⟨s, run, reach⟩ := Machine.Reach.of_along (.start rfl) along
  have seen : ((machine Segment.linux).run {} fullSize).any (fun s =>
      s.given.any fun r => s.given.any fun r' =>
        decide (r.1.name ≠ r'.1.name ∧ ¬r.2.range.Apart r'.2.range)) = true := by decide +kernel
  rw [run, Option.any_some, List.any_eq_true] at seen
  obtain ⟨r, hr, seen⟩ := seen
  obtain ⟨r', hr', seen⟩ := List.any_eq_true.mp seen
  exact ⟨s, reach, r, hr, r', hr', of_decide_eq_true seen⟩

/-! ## The keys -/

/-- The decimal digits of a number determine it. -/
theorem toString_inj {m n : Nat} (h : toString m = toString n) : m = n := by
  have digits : Nat.toDigits 10 m = Nat.toDigits 10 n := by
    rw [← Nat.toList_repr, ← Nat.toList_repr]
    exact congrArg String.toList h
  rw [← Nat.ofDigitChars_ten_toDigits (n := m), digits, Nat.ofDigitChars_ten_toDigits]

/-- Names that fit, and the number of the domain. -/
def within (domainId : Int) : SegmentRun → SegmentRequest → SegmentRun → Prop := fun _ opt t =>
  opt.domainId = domainId ∧ Fits opt t

instance (domainId : Int) (s : SegmentRun) (opt : SegmentRequest) (t : SegmentRun) :
    Decidable (within domainId s opt t) := inferInstanceAs (Decidable (_ ∧ _))

/-- The hash gives different paths of the run different keys. -/
def Distinct (hash : String → Nat) (s : SegmentRun) : Prop :=
  ∀ r ∈ s.given, ∀ r' ∈ s.given, i32 (hash r.2.path) = i32 (hash r'.2.path) →
    r.2.path = r'.2.path

instance (hash : String → Nat) (s : SegmentRun) : Decidable (Distinct hash s) :=
  inferInstanceAs (Decidable (∀ _ ∈ _, ∀ _ ∈ _, _ → _))

theorem within_of_reach {domainId : Int} (h : (machine p).Reach (within domainId) s) :
    ∀ r ∈ s.given, r.1.domainId = domainId := by
  induction h with
  | start h => exact h ▸ by simp
  | step _ move side ih =>
    obtain ⟨seg, given⟩ := given_of_getSegment move
    rw [given]
    intro r hr
    obtain rfl | old := List.mem_cons.mp hr
    · exact side.1
    · exact ih r old

/-- Alike names in the table have one position. -/
theorem Inv.position (h : s.Inv p names) {i j : Nat} {a b : Name} (hi : names[i]? = some a)
    (hj : names[j]? = some b) : i = j ↔ Alike a b := by
  constructor
  · rintro rfl
    rw [Option.some.inj (hi.symm.trans hj)]
    exact Alike.refl b
  · intro alike
    obtain ⟨li, rfl⟩ := List.getElem?_eq_some_iff.mp hi
    obtain ⟨lj, rfl⟩ := List.getElem?_eq_some_iff.mp hj
    rcases lt_trichotomy i j with lt | eq | gt
    · exact (List.pairwise_iff_getElem.mp h.holds.apart i j li lj lt alike).elim
    · exact eq
    · exact (List.pairwise_iff_getElem.mp h.holds.apart j i lj li gt alike.symm).elim

theorem segAddr_inj {i j : Nat} : segAddr i = segAddr j ↔ i = j :=
  ⟨fun h => Nat.eq_of_mul_eq_mul_right (by decide) (Nat.add_left_cancel h), congrArg segAddr⟩

/-- In one domain the path is decided by the channel. -/
theorem path_eq_iff (p : Platform) {opt opt' : SegmentRequest}
    (domain : opt.domainId = opt'.domainId) :
    (XsiSegment.construct p opt).path = (XsiSegment.construct p opt').path ↔
      opt.channelId = opt'.channelId := by
  unfold XsiSegment.construct
  rw [domain, String.append_right_inj]
  exact ⟨toString_inj, congrArg toString⟩

/-- The address is decided by the name and the key by the channel. -/
theorem identities_of_reach {domainId : Int} {hash : String → Nat}
    (h : (machine p).Reach (within domainId) s) (distinct : Distinct hash s) :
    ∀ r ∈ s.given, ∀ r' ∈ s.given,
      (r.2.openKey hash = r'.2.openKey hash ↔ r.1.channelId = r'.1.channelId) ∧
      (r.2.opt.baseAddr = r'.2.opt.baseAddr ↔ Alike r.1.name r'.1.name) := by
  intro r hr r' hr'
  obtain ⟨names, inv⟩ := inv_of_reach (h.mono fun _ _ _ side => side.2)
  have domain := (within_of_reach h r hr).trans (within_of_reach h r' hr').symm
  obtain ⟨i, a, ha, alike, eq⟩ := inv.given r hr
  obtain ⟨i', a', ha', alike', eq'⟩ := inv.given r' hr'
  constructor
  · have paths : r.2.path = r'.2.path ↔ r.1.channelId = r'.1.channelId := by
      rw [eq, eq']
      exact path_eq_iff p domain
    have key : ∀ opt, (XsiSegment.construct p opt).openKey hash =
        i32 (hash (XsiSegment.construct p opt).path) := fun _ => if_pos rfl
    rw [← paths]
    have own : r.2.openKey hash = i32 (hash r.2.path) := by rw [eq, key]
    have other : r'.2.openKey hash = i32 (hash r'.2.path) := by rw [eq', key]
    rw [own, other]
    exact ⟨distinct r hr r' hr', fun same => by rw [same]⟩
  · have own : r.2.opt.baseAddr = segAddr i := by rw [eq]; rfl
    have other : r'.2.opt.baseAddr = segAddr i' := by rw [eq']; rfl
    rw [own, other, segAddr_inj, inv.position ha ha']
    exact ⟨fun same => alike.symm.trans (same.trans alike'),
      fun same => alike.trans (same.trans alike'.symm)⟩

/-- A hash of the characters. -/
def polyHash (path : String) : Nat := path.toList.foldl (fun h c => u64 (31 * h + c.toNat)) 7

/-- Two channels of one name, and another name with the channel of the first. -/
def twoChannels : List SegmentRequest :=
  [{ name := [97], channelId := 1 }, { name := [97], channelId := 2 },
    { name := [98], channelId := 1 }]

/-- The segments of these calls. -/
theorem identities_of_reach_twoChannels :
    ∃ s, (machine Segment.linux).run {} twoChannels = some s ∧ s.given.length = 3 ∧
      ∀ r ∈ s.given, ∀ r' ∈ s.given,
        (r.2.openKey polyHash = r'.2.openKey polyHash ↔ r.1.channelId = r'.1.channelId) ∧
        (r.2.opt.baseAddr = r'.2.opt.baseAddr ↔ Alike r.1.name r'.1.name) := by
  have along : (machine Segment.linux).Along (within 0) {} twoChannels := by decide +kernel
  obtain ⟨s, run, reach⟩ := Machine.Reach.of_along (.start rfl) along
  have seen : ((machine Segment.linux).run {} twoChannels).any (fun s =>
      decide (Distinct polyHash s)) = true := by decide +kernel
  have three : ((machine Segment.linux).run {} twoChannels).map (fun s => s.given.length) =
      some 3 := by decide +kernel
  rw [run] at seen three
  rw [Option.any_some, decide_eq_true_eq] at seen
  exact ⟨s, run, Option.some.inj three, identities_of_reach reach seen⟩

/-- One address with two keys, and one key with two addresses. -/
theorem identities_differ :
    ∃ s, (machine Segment.linux).Reach (within 0) s ∧ Distinct polyHash s ∧
      (∃ r ∈ s.given, ∃ r' ∈ s.given,
        r.2.opt.baseAddr = r'.2.opt.baseAddr ∧ r.2.openKey polyHash ≠ r'.2.openKey polyHash) ∧
      ∃ r ∈ s.given, ∃ r' ∈ s.given,
        r.2.opt.baseAddr ≠ r'.2.opt.baseAddr ∧ r.2.openKey polyHash = r'.2.openKey polyHash := by
  have along : (machine Segment.linux).Along (within 0) {} twoChannels := by decide +kernel
  obtain ⟨s, run, reach⟩ := Machine.Reach.of_along (.start rfl) along
  have distinct : ((machine Segment.linux).run {} twoChannels).any (fun s =>
      decide (Distinct polyHash s)) = true := by decide +kernel
  have oneAddress : ((machine Segment.linux).run {} twoChannels).any (fun s =>
      decide (∃ r ∈ s.given, ∃ r' ∈ s.given, r.2.opt.baseAddr = r'.2.opt.baseAddr ∧
        r.2.openKey polyHash ≠ r'.2.openKey polyHash)) = true := by decide +kernel
  have oneKey : ((machine Segment.linux).run {} twoChannels).any (fun s =>
      decide (∃ r ∈ s.given, ∃ r' ∈ s.given, r.2.opt.baseAddr ≠ r'.2.opt.baseAddr ∧
        r.2.openKey polyHash = r'.2.openKey polyHash)) = true := by decide +kernel
  rw [run, Option.any_some, decide_eq_true_eq] at distinct oneAddress oneKey
  exact ⟨s, reach, distinct, oneAddress, oneKey⟩

end SegmentRun

end Fuxi.Shm
