import Fuxi.Base.RteRing.Fifo
import Fuxi.Lib.Loop

/-!
# The copy loops of a ring

`EnqueueValues` and `DequeueValues` copy between the slots of a ring and `obj_table`. As long as the
slots do not reach the end of the ring, a loop copies four values in each round, and a switch whose
cases fall through copies the rest. Otherwise one loop copies up to the end of the ring, and a
second one goes on from its start.
-/

namespace Fuxi.Base

open Lib

namespace RteRing

variable {α : Type*}

/-- The locals `idx` and `i`, the slots and `obj_table`. `used` lists the slots and the entries of
`obj_table` that have been used, in order. -/
structure Copy (α : Type*) where
  idx : Nat
  i : Nat
  ring : Nat → α
  objTable : Nat → α
  used : List (Nat × Nat) := []

namespace Copy

/-- The locals before the first loop. -/
def start (r : RteRing α) (head : Nat) (objTable : Nat → α) : Copy α where
  idx := head &&& r.mask
  i := 0
  ring := r.storage
  objTable := objTable

/-- The assignment between `ring[idx + d]` and `obj_table[i + d]`. -/
def assign (s : Side) (d : Nat) (c : Copy α) : Copy α :=
  let e := (u32 (c.idx + d), u32 (c.i + d))
  let copied := copyOne s e c.ring c.objTable
  { c with ring := copied.1, objTable := copied.2, used := c.used ++ [e] }

/-- `i += d, idx += d`. -/
def advance (d : Nat) (c : Copy α) : Copy α :=
  { c with idx := u32 (c.idx + d), i := u32 (c.i + d) }

/-- One value: the body of the plain loops, and one case of the switch. -/
def one (s : Side) (c : Copy α) : Copy α := (c.assign s 0).advance 1

/-- The body of the unrolled loop. -/
def four (s : Side) (c : Copy α) : Copy α :=
  ((((c.assign s 0).assign s 1).assign s 2).assign s 3).advance 4

/-- The switch, whose cases fall through. -/
def switch (s : Side) : Nat → Copy α → Copy α
  | 3, c => ((c.one s).one s).one s
  | 2, c => (c.one s).one s
  | 1, c => c.one s
  | _, c => c

end Copy

/-- Both functions, which differ in the direction of the assignments, with so many rounds for each
loop. -/
def copyValues (s : Side) (r : RteRing α) (rounds head : Nat) (objTable : Nat → α) (n : Nat) :
    Option (Copy α) :=
  let c := Copy.start r head objTable
  if u32 (c.idx + n) < r.size then
    (loop (fun c => c.i < n &&& 0xFFFFFFFC) (Copy.four s) rounds c).map (Copy.switch s (n &&& 3))
  else
    (loop (fun c => c.idx < r.size) (Copy.one s) rounds c).bind fun c =>
      loop (fun c => c.i < n) (Copy.one s) rounds { c with idx := 0 }

/-- `EnqueueValues`. -/
def enqueueValues (r : RteRing α) (rounds prodHead : Nat) (objTable : Nat → α) (n : Nat) :=
  copyValues .prod r rounds prodHead objTable n

/-- `DequeueValues`. -/
def dequeueValues (r : RteRing α) (rounds consHead : Nat) (objTable : Nat → α) (n : Nat) :=
  copyValues .cons r rounds consHead objTable n

end RteRing

namespace RingBuffer

/-- `RingBuffer::EnqueuePtrs`. -/
def enqueuePtrs (r : RingBuffer) (rounds prodHead : Nat) (objTable : Nat → Nat) (n : Nat) :=
  RteRing.enqueueValues r rounds prodHead objTable n

/-- `RingBuffer::DequeuePtrs`. -/
def dequeuePtrs (r : RingBuffer) (rounds consHead : Nat) (objTable : Nat → Nat) (n : Nat) :=
  RteRing.dequeueValues r rounds consHead objTable n

end RingBuffer

namespace RteRing

variable {α : Type*} {s : Side} {r : RteRing α} {head n i d : Nat} {objTable : Nat → α} {c : Copy α}

/-! ## The plain element loop -/

/-- The slots and entries of the first `n` values, one after the other. -/
def plainSlots (r : RteRing α) (head n : Nat) : List (Nat × Nat) :=
  (List.range n).map fun i => ((head + i) % r.size, i)

/-- What the copies of a list of slots and entries leave in the ring and in `obj_table`. -/
def plainCopy (s : Side) (r : RteRing α) (objTable : Nat → α) (used : List (Nat × Nat)) :
    (Nat → α) × (Nat → α) :=
  used.foldl (fun p e => copyOne s e p.1 p.2) (r.storage, objTable)

theorem plainSlots_succ (r : RteRing α) (head n : Nat) :
    r.plainSlots head (n + 1) = r.plainSlots head n ++ [((head + n) % r.size, n)] := by
  rw [plainSlots, List.range_succ, List.map_append]
  rfl

theorem plainCopy_append (s : Side) (r : RteRing α) (objTable : Nat → α)
    (used : List (Nat × Nat)) (e : Nat × Nat) :
    plainCopy s r objTable (used ++ [e]) =
      copyOne s e (plainCopy s r objTable used).1 (plainCopy s r objTable used).2 := by
  rw [plainCopy, List.foldl_append]
  rfl

/-- The slots from the first one to the end of the ring. -/
theorem slot_of_lt {size : Nat} (lt : head % size + i < size) :
    (head + i) % size = head % size + i := by
  rw [← Nat.mod_add_mod, Nat.mod_eq_of_lt lt]

/-- The next slots, as long as the ring does not end. -/
theorem slot_add {size idx : Nat} (slot : (head + i) % size = idx) (fits : idx + d < size) :
    (head + (i + d)) % size = idx + d := by
  rw [← Nat.add_assoc, Nat.add_mod, slot, Nat.mod_eq_of_lt (a := d) (by omega),
    Nat.mod_eq_of_lt fits]

namespace Copy

/-- As many values as in the plain loop have been copied. -/
structure Plain (s : Side) (r : RteRing α) (head : Nat) (objTable : Nat → α) (i : Nat)
    (c : Copy α) : Prop where
  used : c.used = r.plainSlots head i
  ring : c.ring = (plainCopy s r objTable (r.plainSlots head i)).1
  table : c.objTable = (plainCopy s r objTable (r.plainSlots head i)).2

/-- The locals have arrived at a slot and an entry. -/
structure At (s : Side) (r : RteRing α) (head : Nat) (objTable : Nat → α) (idx i : Nat)
    (c : Copy α) : Prop extends Plain s r head objTable i c where
  slot : c.idx = idx
  entry : c.i = i

@[simp] theorem assign_idx (s : Side) (d : Nat) (c : Copy α) : (c.assign s d).idx = c.idx := rfl

@[simp] theorem assign_i (s : Side) (d : Nat) (c : Copy α) : (c.assign s d).i = c.i := rfl

variable {idx : Nat}

/-- An assignment is the next one of the plain loop, also when the locals stay behind. -/
theorem Plain.assign (h : c.Plain s r head objTable (i + d)) (slot : c.idx = idx)
    (entry : c.i = i) (start : (head + i) % r.size = idx) (small : r.size ≤ 2147483648)
    (fits : idx + d < r.size) (few : i + d < r.size) :
    (c.assign s d).Plain s r head objTable (i + d + 1) := by
  have here : u32 (c.idx + d) = idx + d := by rw [slot, u32_of_lt (by omega)]
  have there : u32 (c.i + d) = i + d := by rw [entry, u32_of_lt (by omega)]
  constructor
  · rw [plainSlots_succ, slot_add start fits, ← h.used]
    simp only [Copy.assign, here, there]
  · rw [plainSlots_succ, plainCopy_append, slot_add start fits, ← h.ring, ← h.table]
    simp only [Copy.assign, here, there]
  · rw [plainSlots_succ, plainCopy_append, slot_add start fits, ← h.ring, ← h.table]
    simp only [Copy.assign, here, there]

theorem Plain.advance (h : c.Plain s r head objTable i) (slot : c.idx + d < 4294967296)
    (entry : c.i + d < 4294967296) (same : c.i + d = i) :
    (c.advance d).At s r head objTable (c.idx + d) i :=
  ⟨⟨h.used, h.ring, h.table⟩, u32_of_lt slot, (u32_of_lt entry).trans same⟩

theorem At.start (masked : head &&& r.mask = head % r.size) :
    (Copy.start r head objTable).At s r head objTable (head % r.size) 0 :=
  ⟨⟨rfl, rfl, rfl⟩, masked, rfl⟩

theorem At.one (h : c.At s r head objTable idx i) (start : (head + i) % r.size = idx)
    (small : r.size ≤ 2147483648) (fits : idx < r.size) (few : i < r.size) :
    (c.one s).At s r head objTable (idx + 1) (i + 1) := by
  obtain ⟨plain, slot, entry⟩ := h
  have first := @Plain.assign _ _ _ _ _ 0 _ _ _ plain slot entry start small fits few
  have next := @Plain.advance _ _ _ _ _ 1 _ _ first (by simp; omega) (by simp; omega)
    (by simp; omega)
  rwa [assign_idx, slot] at next

theorem At.four (h : c.At s r head objTable idx i) (start : (head + i) % r.size = idx)
    (small : r.size ≤ 2147483648) (fits : idx + 3 < r.size) (few : i + 3 < r.size) :
    (c.four s).At s r head objTable (idx + 4) (i + 4) := by
  obtain ⟨plain, slot, entry⟩ := h
  have first := @Plain.assign _ _ _ _ _ 0 _ _ _ plain slot entry start small (by omega) (by omega)
  have second := first.assign (d := 1) slot entry start small (by omega) (by omega)
  have third := second.assign (d := 2) slot entry start small (by omega) (by omega)
  have fourth := third.assign (d := 3) slot entry start small fits few
  have next := fourth.advance (d := 4) (by simp; omega) (by simp; omega) (by simp; omega)
  simp only [assign_idx, slot] at next
  exact next

/-- The switch copies as many values as its number tells. -/
theorem At.switch (h : c.At s r head objTable idx i) (start : (head + i) % r.size = idx)
    (small : r.size ≤ 2147483648) {rest : Nat} (most : rest < 4) (fits : idx + rest < r.size)
    (few : i + rest < r.size) : (Copy.switch s rest c).Plain s r head objTable (i + rest) := by
  have first (more : 1 ≤ rest) := h.one start small (by omega) (by omega)
  have second (more : 2 ≤ rest) :=
    have next : (head + (i + 1)) % r.size = idx + 1 := slot_add start (by omega)
    (first (by omega)).one next small (by omega) (by omega)
  have third (more : 3 ≤ rest) :=
    have next : (head + (i + 1 + 1)) % r.size = idx + 1 + 1 :=
      @slot_add head (i + 1) 1 _ (idx + 1) (slot_add start (by omega)) (by omega)
    (second (by omega)).one next small (by omega) (by omega)
  match rest with
  | 0 => exact h.toPlain
  | 1 => exact (first le_rfl).toPlain
  | 2 => exact (second le_rfl).toPlain
  | 3 => exact (third le_rfl).toPlain

end Copy

/-! ## The loops -/

/-- `n & ~3`. -/
theorem and_not_three {n : Nat} (word : n < 4294967296) : n &&& 0xFFFFFFFC = n / 4 * 4 := by
  have mask : 0xFFFFFFFC = (2 ^ 30 - 1) <<< 2 := rfl
  have shifts : n / 4 * 4 = n >>> 2 <<< 2 := by
    rw [Nat.shiftLeft_eq, Nat.shiftRight_eq_div_pow]
  rw [mask, shifts]
  refine Nat.eq_of_testBit_eq fun i => ?_
  simp only [Nat.testBit_and, Nat.testBit_shiftLeft, Nat.testBit_two_pow_sub_one,
    Nat.testBit_shiftRight]
  by_cases low : 2 ≤ i
  · rw [Nat.add_sub_cancel' low]
    by_cases high : i < 32
    · have : i - 2 < 30 := by omega
      simp [low, this]
    · have : n < 2 ^ i := word.trans_le (Nat.pow_le_pow_right (n := 2) (by decide) (not_lt.mp high))
      simp [Nat.testBit_lt_two_pow this]
  · simp [low]

/-- The slots do not reach the end of the ring. -/
theorem copyValues_straight (masked : head &&& r.mask = head % r.size)
    (small : r.size ≤ 2147483648) (fits : head % r.size + n < r.size) :
    ∃ c, (∀ rounds, n ≤ rounds → copyValues s r rounds head objTable n = some c) ∧
      c.Plain s r head objTable n := by
  have bound : n &&& 0xFFFFFFFC = n / 4 * 4 := and_not_three (by omega)
  have rest : n &&& 3 = n % 4 := Nat.and_two_pow_sub_one_eq_mod n 2
  have word : u32 (head % r.size + n) = head % r.size + n := u32_of_lt (by omega)
  have whole := Nat.div_add_mod' n 4
  -- after `m` rounds, `4 * m` values have been copied
  have more (m : Nat) (lt : m < n / 4) (c : Copy α)
      (h : c.At s r head objTable (head % r.size + m * 4) (m * 4)) :
      decide (c.i < n &&& 0xFFFFFFFC) = true ∧
        (c.four s).At s r head objTable (head % r.size + (m + 1) * 4) ((m + 1) * 4) := by
    constructor
    · rw [h.entry, bound, decide_eq_true_eq]
      omega
    · rw [Nat.succ_mul]
      exact h.four (slot_of_lt (by omega)) small (by omega) (by omega)
  have stop (c : Copy α) (h : c.At s r head objTable (head % r.size + n / 4 * 4) (n / 4 * 4)) :
      decide (c.i < n &&& 0xFFFFFFFC) = false := by
    rw [h.entry, bound]
    exact decide_eq_false (lt_irrefl _)
  obtain ⟨c, ends, last⟩ := @loop_counted (Copy α) _ _ _ _ (fun m c =>
    c.At s r head objTable (head % r.size + m * 4) (m * 4)) (Copy.At.start masked) more stop
  refine ⟨c.switch s (n &&& 3), fun rounds enough => ?_, ?_⟩
  · have entered : u32 ((Copy.start r head objTable).idx + n) < r.size := by
      rwa [Copy.start, masked, word]
    rw [copyValues, if_pos entered, ends rounds (by omega)]
    rfl
  · have copied := last.switch (slot_of_lt (by omega)) small
      (Nat.mod_lt n (show 0 < 4 by decide)) (by omega) (by omega)
    rw [rest]
    rwa [whole] at copied

/-- They reach it, and perhaps go on at the start. -/
theorem copyValues_wrapping (masked : head &&& r.mask = head % r.size)
    (small : r.size ≤ 2147483648) (pos : 0 < r.size) (le : n ≤ r.size)
    (wraps : r.size ≤ head % r.size + n) :
    ∃ c, (∀ rounds, n ≤ rounds → copyValues s r rounds head objTable n = some c) ∧
      c.Plain s r head objTable n := by
  have inside := Nat.mod_lt head pos
  have word : u32 (head % r.size + n) = head % r.size + n := u32_of_lt (by omega)
  obtain ⟨upper, split⟩ : ∃ upper, r.size = head % r.size + upper :=
    Nat.exists_eq_add_of_le inside.le
  have more (m : Nat) (lt : m < upper) (c : Copy α)
      (h : c.At s r head objTable (head % r.size + m) m) :
      decide (c.idx < r.size) = true ∧
        (c.one s).At s r head objTable (head % r.size + (m + 1)) (m + 1) := by
    refine ⟨?_, h.one (slot_of_lt (by omega)) small (by omega) (by omega)⟩
    rw [h.slot, decide_eq_true_eq]
    omega
  have stop (c : Copy α) (h : c.At s r head objTable (head % r.size + upper) upper) :
      decide (c.idx < r.size) = false := by
    rw [h.slot, ← split]
    exact decide_eq_false (lt_irrefl _)
  obtain ⟨c, ends, half⟩ := @loop_counted (Copy α) _ _ _ _ (fun m c =>
    c.At s r head objTable (head % r.size + m) m) (Copy.At.start masked) more stop
  have again : Copy.At s r head objTable 0 upper { c with idx := 0 } :=
    ⟨⟨half.used, half.ring, half.table⟩, rfl, half.entry⟩
  have more' (m : Nat) (lt : m < n - upper) (c : Copy α)
      (h : c.At s r head objTable m (upper + m)) :
      decide (c.i < n) = true ∧ (c.one s).At s r head objTable (m + 1) (upper + (m + 1)) := by
    have wrap : head % r.size + (upper + m) = m + r.size := by omega
    have slot : (head + (upper + m)) % r.size = m := by
      rw [← Nat.mod_add_mod, wrap, Nat.add_mod_right, Nat.mod_eq_of_lt (by omega)]
    refine ⟨?_, h.one slot small (by omega) (by omega)⟩
    rw [h.entry, decide_eq_true_eq]
    omega
  have stop' (c : Copy α) (h : c.At s r head objTable (n - upper) (upper + (n - upper))) :
      decide (c.i < n) = false := by
    rw [h.entry, decide_eq_false_iff_not]
    omega
  obtain ⟨d, ends', last⟩ := @loop_counted (Copy α) _ _ _ _ (fun m c =>
    c.At s r head objTable m (upper + m)) again more' stop'
  refine ⟨d, fun rounds enough => ?_, ?_⟩
  · have entered : ¬u32 ((Copy.start r head objTable).idx + n) < r.size := by
      rw [Copy.start, masked, word]
      exact not_lt.mpr wraps
    rw [copyValues, if_neg entered, ends rounds (by omega), Option.bind_some]
    exact ends' rounds (by omega)
  · have all : upper + (n - upper) = n := by omega
    exact all ▸ last.toPlain

/-- Both functions leave what the plain loop leaves, for every number of values that the ring
holds. -/
theorem copyValues_plain (masked : head &&& r.mask = head % r.size)
    (small : r.size ≤ 2147483648) (pos : 0 < r.size) (le : n ≤ r.size) :
    ∃ c, (∀ rounds, n ≤ rounds → copyValues s r rounds head objTable n = some c) ∧
      c.Plain s r head objTable n := by
  by_cases fits : head % r.size + n < r.size
  · exact copyValues_straight masked small fits
  · exact copyValues_wrapping masked small pos le (not_lt.mp fits)

theorem plainSlots_mem {e : Nat × Nat} (pos : 0 < r.size) (h : e ∈ r.plainSlots head n) :
    e.1 < r.size ∧ e.2 < n := by
  obtain ⟨i, mem, rfl⟩ := List.mem_map.mp h
  exact ⟨Nat.mod_lt _ pos, List.mem_range.mp mem⟩

/-- The loops use the slots that a claim of the ring moves, and do with them what it does. -/
theorem copyValues_schedule (h : r.WellSized) (pos : 0 < r.size) (word : head < 4294967296)
    (le : n ≤ r.size) (s : Side) (objTable : Nat → α) :
    ∃ c, (∀ rounds, n ≤ rounds → copyValues s r rounds head objTable n = some c) ∧
      c.used = r.schedule head n ∧
      (c.ring, c.objTable) =
        (r.schedule head n).foldl (fun p e => copyOne s e p.1 p.2) (r.storage, objTable) := by
  have masked : head &&& r.mask = head % r.size := by
    rw [← h.and_mask pos, u32_of_lt word]
  have slots : r.plainSlots head n = r.schedule head n := (h.schedule_eq pos head le).symm
  obtain ⟨c, ends, plain⟩ := @copyValues_plain _ s _ _ _ objTable masked h.size_le pos le
  refine ⟨c, ends, plain.used.trans slots, ?_⟩
  rw [plain.ring, plain.table, slots]
  rfl

/-- `EnqueueValues` and `DequeueValues` move each value between its entry and its slot, and use
nothing else. -/
theorem values_copied {k : Nat} (le31 : k ≤ 31) (r : RteRing α) (sized : r.size = 2 ^ k)
    (masked : r.mask = 2 ^ k - 1) (head : Nat) (objTable : Nat → α) {n : Nat} (le : n ≤ r.size) :
    (∃ c, (∀ rounds, n ≤ rounds → r.enqueueValues rounds head objTable n = some c) ∧
      (∀ i < n, c.ring ((head + i) % r.size) = objTable i) ∧
      (∀ x, (∀ i < n, x ≠ (head + i) % r.size) → c.ring x = r.storage x) ∧
      c.objTable = objTable ∧
      c.used = r.plainSlots head n ∧ ∀ e ∈ c.used, e.1 < r.size ∧ e.2 < n) ∧
    ∃ c, (∀ rounds, n ≤ rounds → r.dequeueValues rounds head objTable n = some c) ∧
      (∀ i < n, c.objTable i = r.storage ((head + i) % r.size)) ∧
      (∀ i, n ≤ i → c.objTable i = objTable i) ∧
      c.ring = r.storage ∧
      c.used = r.plainSlots head n ∧ ∀ e ∈ c.used, e.1 < r.size ∧ e.2 < n := by
  have pos : 0 < r.size := sized ▸ Nat.two_pow_pos k
  have small : r.size ≤ 2 ^ 31 := sized ▸ Nat.pow_le_pow_right (by decide) le31
  have modulo : head &&& r.mask = head % r.size := by
    rw [masked, Nat.and_two_pow_sub_one_eq_mod, sized]
  constructor
  · obtain ⟨c, ends, plain⟩ := @copyValues_plain _ .prod _ _ _ objTable modulo small pos le
    obtain ⟨storage, fold, filled, rest⟩ := foldl_store head r.storage objTable le
    have copied : plainCopy .prod r objTable (r.plainSlots head n) = (storage, objTable) := fold
    refine ⟨c, ends, fun i lt => ?_, fun x other => ?_, ?_, plain.used, fun e mem => ?_⟩
    · rw [plain.ring, copied]
      exact filled i lt
    · rw [plain.ring, copied]
      exact rest x other
    · rw [plain.table, copied]
    · exact plainSlots_mem pos (plain.used ▸ mem)
  · obtain ⟨c, ends, plain⟩ := @copyValues_plain _ .cons _ _ _ objTable modulo small pos le
    have copied : plainCopy .cons r objTable (r.plainSlots head n) =
        (r.storage, fun i => if i < n then r.storage ((head + i) % r.size) else objTable i) :=
      foldl_load r.size head r.storage objTable n
    refine ⟨c, ends, fun i lt => ?_, fun i ge => ?_, ?_, plain.used, fun e mem => ?_⟩
    · rw [plain.table, copied]
      exact if_pos lt
    · rw [plain.table, copied]
      exact if_neg (not_lt.mpr ge)
    · rw [plain.ring, copied]
    · exact plainSlots_mem pos (plain.used ▸ mem)

/-- Three values from the last slot of four on. -/
theorem values_copied_three :
    let r : RteRing Nat := ⟨4, 3, 4, true, true, {}, {}, fun x => 20 + x⟩
    ∃ c, (∀ rounds, 3 ≤ rounds → r.enqueueValues rounds 4294967295 (10 + ·) 3 = some c) ∧
      c.ring 3 = 10 ∧ c.ring 0 = 11 ∧ c.ring 1 = 12 ∧ c.ring 2 = 22 ∧
      c.used = [(3, 0), (0, 1), (1, 2)] := by
  obtain ⟨⟨c, ends, filled, rest, _, used, _⟩, _⟩ := @values_copied Nat 2 (by decide)
    ⟨4, 3, 4, true, true, {}, {}, fun x => 20 + x⟩ rfl rfl 4294967295 (10 + ·) 3 (by decide)
  exact ⟨c, ends, filled 0 (by decide), filled 1 (by decide), filled 2 (by decide),
    rest 2 (by decide), used⟩

example :
    let r : RteRing Nat := ⟨16, 15, 16, true, true, {}, {}, fun x => x⟩
    (r.dequeueValues 1 4294967298 (fun _ => 0) 7).map
      (fun c => (List.range 8).map c.objTable) = some [2, 3, 4, 5, 6, 7, 8, 0] := by
  decide

end RteRing

namespace RingBuffer

/-- The loops of a ring of pointers move what a claim of the ring moves. -/
theorem ptrs_schedule {r : RingBuffer} {head n : Nat} (h : r.WellSized) (pos : 0 < r.size)
    (word : head < 4294967296) (le : n ≤ r.size) (objTable : Nat → Nat) :
    (∃ c, (∀ rounds, n ≤ rounds → enqueuePtrs r rounds head objTable n = some c) ∧
      (c.ring, c.objTable) = (r.schedule head n).foldl
        (fun p e => RteRing.copyOne .prod e p.1 p.2) (r.storage, objTable)) ∧
    ∃ c, (∀ rounds, n ≤ rounds → dequeuePtrs r rounds head objTable n = some c) ∧
      (c.ring, c.objTable) = (r.schedule head n).foldl
        (fun p e => RteRing.copyOne .cons e p.1 p.2) (r.storage, objTable) := by
  obtain ⟨c, stores, _, stored⟩ := RteRing.copyValues_schedule h pos word le .prod objTable
  obtain ⟨d, loads, _, loaded⟩ := RteRing.copyValues_schedule h pos word le .cons objTable
  exact ⟨⟨c, stores, stored⟩, d, loads, loaded⟩

end RingBuffer

end Fuxi.Base
