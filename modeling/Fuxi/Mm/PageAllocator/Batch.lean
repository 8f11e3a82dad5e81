import Mathlib.Algebra.BigOperators.Intervals
import Mathlib.Algebra.Order.BigOperators.Group.Finset
import Mathlib.Algebra.Order.Group.Multiset
import Mathlib.Tactic.Abel
import Fuxi.Base.ThreadLocal
import Fuxi.Lib.Holdings
import Fuxi.Lib.Machine

/-!
# `BatchPageAllocator`

Each thread has a buffer of pages that have been fetched in one go. Only `set_batch_size`
gives the buffers their size, and it builds new buffers in the place of those that there are.
-/

namespace Fuxi.Mm

open Base Lib

variable {Page : Type*}

/-- `BatchPageAllocator::Slot`; `nextPage` is an offset into the buffer. -/
structure BatchSlot (Page : Type*) where
  buffer : List Page := []
  nextPage : Nat := 0

/-- The prefetched pages that have not been returned. -/
def BatchSlot.rest (slot : BatchSlot Page) : List Page := slot.buffer.drop slot.nextPage

/-- `BatchPageAllocator`; `configured` tells whether `_cache` has the constructor of
`set_batch_size` or the default one. -/
structure BatchPageAllocator (Page : Type*) where
  batchSize : Nat := 16
  configured : Bool := false
  cache : EnumerableThreadLocal (BatchSlot Page)

/-- What one `allocate` returns and gets from the upstream. -/
structure BatchAllocated (Page : Type*) where
  allocator : BatchPageAllocator Page
  page : Page
  obtained : List Page

namespace BatchPageAllocator

/-- The default constructor. -/
def empty (Page : Type*) : BatchPageAllocator Page := { cache := ⟨0, fun _ => {}⟩ }

variable [Zero Page]

/-- A slot after the constructor of `_cache`. -/
def construct (a : BatchPageAllocator Page) : BatchSlot Page :=
  if a.configured then ⟨List.replicate a.batchSize 0, a.batchSize⟩ else {}

/-- `_cache.local()` makes sure that the slot exists; a new block is filled with new slots. -/
def ensure (a : BatchPageAllocator Page) (index : Nat) : BatchPageAllocator Page :=
  { a with cache :=
      { a.cache.ensure index with element := fun i =>
          if i < a.cache.size then a.cache.element i else a.construct } }

/-- `set_batch_size`; `set_constructor` destroys all slots and constructs them anew. -/
def setBatchSize (a : BatchPageAllocator Page) (batchSize : Nat) : BatchPageAllocator Page :=
  let a := { a with batchSize := batchSize, configured := true }
  { a with cache.element := fun i =>
      if i < a.cache.size then a.construct else a.cache.element i }

def setSlot (a : BatchPageAllocator Page) (index : Nat) (slot : BatchSlot Page) :
    BatchPageAllocator Page :=
  { a with cache.element := Function.update a.cache.element index slot }

/-- `allocate` of the thread with an id; the upstream answers with the pages
`fresh 0, fresh 1, ..`. There is no result if the upstream is told to write behind the end of
the buffer, or the page is read there. -/
def allocate (a : BatchPageAllocator Page) (index : Nat) (fresh : Nat → Page) :
    Option (BatchAllocated Page) :=
  let a := a.ensure index
  let slot := a.cache.element index
  if h : slot.nextPage < slot.buffer.length then
    some ⟨a.setSlot index { slot with nextPage := slot.nextPage + 1 }, slot.buffer[slot.nextPage], []⟩
  else if a.batchSize ≤ slot.buffer.length then
    let pages := (List.range a.batchSize).map fresh
    match pages ++ slot.buffer.drop a.batchSize with
    | [] => none
    | page :: buffer => some ⟨a.setSlot index ⟨page :: buffer, 1⟩, page, pages⟩
  else none

/-- What the destructor gives back to the upstream; `threadEnd` is `ThreadId::end`. -/
def destroy (a : BatchPageAllocator Page) (threadEnd : Nat) : List Page :=
  (a.cache.each threadEnd).flatMap BatchSlot.rest

/-- All prefetched pages that have not been returned. -/
def pending (a : BatchPageAllocator Page) : Multiset Page :=
  ∑ i ∈ Finset.range a.cache.size, (a.cache.element i).rest

end BatchPageAllocator

/-- An allocator and where the pages are; `threadIds` is the number of ids that threads have
got, and `wild` says that memory has been written that is not the allocator's. -/
structure BatchRun (Page : Type*) where
  allocator : BatchPageAllocator Page
  alive : Bool
  wild : Bool
  threadIds : Nat
  obtained : Multiset Page
  returned : Multiset Page
  givenBack : Multiset Page

inductive BatchMove (Page : Type*)
  | threadId
  | setBatchSize (batchSize : Nat)
  | allocate (index : Nat) (fresh : Nat → Page)
  | destroy

namespace BatchRun

def initial (Page : Type*) : BatchRun Page := ⟨.empty Page, true, false, 0, 0, 0, 0⟩

variable [Zero Page]

/-- One call; the batch size is at least one, and a thread calls with its id. -/
def step (s : BatchRun Page) (m : BatchMove Page) : Option (BatchRun Page) :=
  if s.alive = true ∧ s.wild = false then
    match m with
    | .threadId => if s.threadIds < 65536 then some { s with threadIds := s.threadIds + 1 } else none
    | .setBatchSize batchSize =>
      if 0 < batchSize then some { s with allocator := s.allocator.setBatchSize batchSize } else none
    | .allocate index fresh =>
      if index < s.threadIds then
        match s.allocator.allocate index fresh with
        | some done =>
          some { s with
            allocator := done.allocator
            obtained := s.obtained + done.obtained
            returned := done.page ::ₘ s.returned }
        | none => some { s with wild := true }
      else none
    | .destroy =>
      some { s with
        alive := false
        givenBack := s.givenBack + s.allocator.destroy (u16 s.threadIds) }
  else none

end BatchRun

def batchMachine (Page : Type*) [Zero Page] : Machine (BatchRun Page) (BatchMove Page) where
  start s := s = .initial Page
  step := BatchRun.step

/-! ## Prefetched pages -/

/-- The lists of the first numbers, one after the other. -/
theorem coe_flatMap_range (f : Nat → List Page) (n : Nat) :
    (((List.range n).flatMap f : List Page) : Multiset Page) =
      ∑ i ∈ Finset.range n, (f i : Multiset Page) := by
  induction n with
  | zero => rfl
  | succ n ih =>
    rw [List.range_succ, List.flatMap_append, ← Multiset.coe_add, ih, Finset.sum_range_succ,
      List.flatMap_singleton]

/-- A buffer that has just been filled. -/
theorem BatchSlot.rest_cons (page : Page) (pages : List Page) :
    (⟨page :: pages, 1⟩ : BatchSlot Page).rest = pages := rfl

namespace BatchPageAllocator

variable {a : BatchPageAllocator Page}

/-- The buffers are as long as the batch size says, or there are none. -/
structure Sized (a : BatchPageAllocator Page) : Prop where
  pos : 0 < a.batchSize
  buffers : ∀ i < a.cache.size, a.configured = true ∧ (a.cache.element i).buffer.length = a.batchSize

theorem sized_empty : (empty Page).Sized := ⟨Nat.succ_pos 15, fun _ lt => absurd lt (Nat.not_lt_zero _)⟩

theorem Sized.setSlot (h : a.Sized) {index : Nat} {slot : BatchSlot Page}
    (length : slot.buffer.length = a.batchSize) : (a.setSlot index slot).Sized := by
  refine ⟨h.pos, fun i lt => ⟨(h.buffers i lt).1, ?_⟩⟩
  by_cases same : i = index
  · simpa [BatchPageAllocator.setSlot, same] using length
  · simpa [BatchPageAllocator.setSlot, same] using (h.buffers i lt).2

/-- The pages of one slot and of the others. -/
theorem exists_others {index : Nat} (lt : index < a.cache.size) : ∃ others : Multiset Page,
    a.pending = (a.cache.element index).rest + others ∧
      ∀ slot, (a.setSlot index slot).pending = slot.rest + others := by
  have mem := Finset.mem_range.mpr lt
  let worth (slot : BatchSlot Page) : Multiset Page := slot.rest
  refine ⟨total ((Finset.range a.cache.size).erase index) worth a.cache.element, ?_, ?_⟩
  · exact (total_erase mem).symm
  · intro slot
    let new := Function.update a.cache.element index slot
    have split : worth (new index) + total ((Finset.range a.cache.size).erase index) worth new =
        (a.setSlot index slot).pending := total_erase mem
    have own : new index = slot := Function.update_self ..
    rw [← split, own, total_update_of_notMem (Finset.notMem_erase index _)]

/-- The destructor gives back what the slots hold that it visits. -/
theorem pending_eq (a : BatchPageAllocator Page) (threadEnd : Nat) : ∃ left : Multiset Page,
    a.pending = ↑(a.destroy threadEnd) + left ∧
      (left = 0 ↔ ∀ i < a.cache.size, a.cache.visited threadEnd ≤ i → (a.cache.element i).rest = []) := by
  have le : a.cache.visited threadEnd ≤ a.cache.size := (min_le_right ..).trans (Nat.mod_le ..)
  refine ⟨∑ i ∈ Finset.Ico (a.cache.visited threadEnd) a.cache.size, (a.cache.element i).rest, ?_, ?_⟩
  · rw [destroy, EnumerableThreadLocal.each, List.flatMap_map, coe_flatMap_range,
      Finset.sum_range_add_sum_Ico _ le]
    rfl
  · rw [Finset.sum_eq_zero_iff]
    simp only [Finset.mem_Ico, Multiset.coe_eq_zero]
    exact ⟨fun h i lt ge => h i ⟨ge, lt⟩, fun h i hi => h i hi.2 hi.1⟩

variable [Zero Page]

/-- A new slot holds no page. -/
theorem rest_construct : a.construct.rest = [] := by
  unfold construct
  split_ifs
  · simp [BatchSlot.rest]
  · rfl

theorem ensure_spec {index : Nat} (id : index < 65536) :
    index < (a.ensure index).cache.size ∧ a.cache.size ≤ (a.ensure index).cache.size := by
  simp only [ensure, EnumerableThreadLocal.size_eq, EnumerableThreadLocal.ensure,
    EnumerableThreadLocal.expectBlockNum_ensure id]
  omega

theorem Sized.ensure (h : a.Sized) (configured : a.configured = true) (index : Nat) :
    (a.ensure index).Sized := by
  refine ⟨h.pos, fun i _ => ⟨configured, ?_⟩⟩
  simp only [BatchPageAllocator.ensure]
  split_ifs with old
  · exact (h.buffers i old).2
  · simp [construct, configured]

theorem pending_ensure {index : Nat} (id : index < 65536) :
    (a.ensure index).pending = a.pending := by
  refine (Finset.sum_subset_zero_on_sdiff (Finset.range_mono (ensure_spec id).2) ?_ ?_).symm
  · intro i hi
    simp only [Finset.mem_sdiff, Finset.mem_range] at hi
    simp [BatchPageAllocator.ensure, hi.2, rest_construct]
  · intro i hi
    simp [BatchPageAllocator.ensure, Finset.mem_range.mp hi]

/-- After `set_batch_size`, `allocate` returns a page that it has prefetched or gets now. -/
theorem Sized.allocate (h : a.Sized) (configured : a.configured = true) {index : Nat}
    (id : index < 65536) (fresh : Nat → Page) : ∃ r, a.allocate index fresh = some r ∧
      r.allocator.Sized ∧ {r.page} + r.allocator.pending = a.pending + ↑r.obtained := by
  have sized := h.ensure configured index
  have inside := (ensure_spec (a := a) id).1
  obtain ⟨others, pending, set⟩ := exists_others inside
  rw [pending_ensure id] at pending
  have length := (sized.buffers index inside).2
  have pos : 0 < (a.ensure index).batchSize := h.pos
  simp only [BatchPageAllocator.allocate]
  generalize (a.ensure index).cache.element index = slot at *
  split_ifs with ready fits
  · refine ⟨_, rfl, sized.setSlot length, ?_⟩
    have rest : slot.rest = slot.buffer[slot.nextPage] :: slot.buffer.drop (slot.nextPage + 1) :=
      List.drop_eq_getElem_cons ready
    rw [set, pending, rest, ← Multiset.cons_coe, Multiset.coe_nil, add_zero, ← add_assoc,
      Multiset.singleton_add]
    rfl
  · obtain ⟨n, hn⟩ := Nat.exists_eq_succ_of_ne_zero pos.ne'
    have none : slot.rest = [] := List.drop_of_length_le (not_lt.mp ready)
    have all : slot.buffer.drop (a.ensure index).batchSize = [] :=
      List.drop_of_length_le length.le
    rw [all, List.append_nil, hn, List.range_succ_eq_map, List.map_cons]
    refine ⟨_, rfl, sized.setSlot (by simp [hn]), ?_⟩
    rw [set, pending, none, BatchSlot.rest_cons, ← Multiset.cons_coe, ← Multiset.singleton_add,
      Multiset.coe_nil]
    abel
  · exact absurd length.ge fits

/-- Only the slot of the calling thread changes. -/
theorem allocate_setSlot {index : Nat} {fresh : Nat → Page} {r : BatchAllocated Page}
    (ret : a.allocate index fresh = some r) :
    ∃ slot, r.allocator = (a.ensure index).setSlot index slot := by
  simp only [BatchPageAllocator.allocate] at ret
  split_ifs at ret with ready fits
  · cases ret
    exact ⟨_, rfl⟩
  · split at ret
    · cases ret
    · cases ret
      exact ⟨_, rfl⟩

/-- Before any `set_batch_size`, the upstream writes to the null pointer. -/
theorem Sized.allocate_default (h : a.Sized) (default : ¬a.configured = true) (index : Nat)
    (fresh : Nat → Page) : a.allocate index fresh = none := by
  have new : ¬index < a.cache.size := fun lt => default (h.buffers index lt).1
  have slot : (a.ensure index).cache.element index = {} := by
    simp [BatchPageAllocator.ensure, new, construct, default]
  have big : ¬(a.ensure index).batchSize ≤ 0 := h.pos.not_ge
  simp [BatchPageAllocator.allocate, slot, big]

/-- `set_batch_size` leaves no prefetched page. -/
theorem sized_setBatchSize {batchSize : Nat} (pos : 0 < batchSize) :
    (a.setBatchSize batchSize).Sized ∧ (a.setBatchSize batchSize).pending = 0 := by
  refine ⟨⟨pos, fun i lt => ⟨rfl, ?_⟩⟩, Finset.sum_eq_zero fun i lt => ?_⟩
  · have lt : i < a.cache.size := lt
    simp [BatchPageAllocator.setBatchSize, lt, construct]
  · have lt : i < a.cache.size := Finset.mem_range.mp lt
    simp only [BatchPageAllocator.setBatchSize, lt, if_true]
    rw [rest_construct]
    rfl

end BatchPageAllocator

/-! ## Runs -/

namespace BatchRun

/-- The prefetched pages of an allocator that is alive. -/
def pending (s : BatchRun Page) : Multiset Page := if s.alive then s.allocator.pending else 0

/-- Each page obtained from the upstream has been returned to one caller, waits in a buffer, or
has been given back; after the destructor none waits. No memory has been overwritten. -/
structure Exact (s : BatchRun Page) : Prop where
  tame : s.wild = false
  places : s.obtained = s.returned + s.pending + s.givenBack

/-- What is so in any case: no page is in two places. -/
structure Inv (s : BatchRun Page) : Prop where
  sized : s.allocator.Sized
  within : s.returned + s.pending + s.givenBack ≤ s.obtained
  ids : s.threadIds ≤ 65536

theorem inv_initial : (initial Page).Inv where
  sized := BatchPageAllocator.sized_empty
  within := le_rfl
  ids := Nat.zero_le _

theorem exact_initial : (initial Page).Exact := ⟨rfl, rfl⟩

theorem exact_iff_places {s : BatchRun Page} (tame : s.wild = false) :
    s.Exact ↔ s.obtained = s.returned + s.pending + s.givenBack :=
  ⟨Exact.places, fun places => ⟨tame, places⟩⟩

/-- The waiting pages are given back up to some that are left: these are lost for good. -/
theorem Inv.lose {s : BatchRun Page} (h : s.Inv) (s' : BatchRun Page) (kept left : Multiset Page)
    (tame : s.wild = false ∧ s'.wild = false) (pending : s.pending = kept + left)
    (pending' : s'.pending = 0) (obtained : s'.obtained = s.obtained)
    (returned : s'.returned = s.returned) (givenBack : s'.givenBack = s.givenBack + kept) :
    s'.returned + s'.pending + s'.givenBack ≤ s'.obtained ∧ (s'.Exact ↔ s.Exact ∧ left = 0) := by
  have split : s.returned + s.pending + s.givenBack =
      s'.returned + s'.pending + s'.givenBack + left := by
    rw [pending, pending', returned, givenBack]
    abel
  have within : s'.returned + s'.pending + s'.givenBack + left ≤ s'.obtained := by
    rw [← split, obtained]
    exact h.within
  refine ⟨le_trans (Multiset.le_add_right ..) within, ?_⟩
  rw [exact_iff_places tame.1, exact_iff_places tame.2, split, ← obtained]
  constructor
  · intro all
    have none : left ≤ 0 := by
      refine le_of_add_le_add_left (a := s'.returned + s'.pending + s'.givenBack) ?_
      rw [add_zero, ← all]
      exact all ▸ within
    have none := le_antisymm none (Multiset.zero_le left)
    rw [none, add_zero]
    exact ⟨all, rfl⟩
  · rintro ⟨all, none⟩
    rw [none, add_zero] at all
    exact all

/-- Calls come after a `set_batch_size`, the batch size changes when no buffer has a page left,
and every buffer that has one is visited by the destructor. -/
def careful (s : BatchRun Page) (m : BatchMove Page) (_ : BatchRun Page) : Prop :=
  let a := s.allocator
  match m with
  | .threadId => True
  | .setBatchSize _ => ∀ i < a.cache.size, (a.cache.element i).rest = []
  | .allocate _ _ => a.configured = true
  | .destroy => ∀ i < a.cache.size, a.cache.visited (u16 s.threadIds) ≤ i → (a.cache.element i).rest = []

theorem pending_alive {s : BatchRun Page} (alive : s.alive = true) :
    s.pending = s.allocator.pending := if_pos alive

theorem pending_dead {s : BatchRun Page} (dead : s.alive = false) : s.pending = 0 :=
  if_neg (by simp [dead])

theorem Inv.destroy {s : BatchRun Page} (h : s.Inv) (alive : s.alive = true) (tame : s.wild = false) :
    let s' : BatchRun Page := { s with
      alive := false
      givenBack := s.givenBack + s.allocator.destroy (u16 s.threadIds) }
    s'.Inv ∧ (s'.Exact ↔ s.Exact ∧ s.careful .destroy s') := by
  intro s'
  obtain ⟨left, pending, none_left⟩ := s.allocator.pending_eq (u16 s.threadIds)
  obtain ⟨within, exact⟩ := h.lose s' _ left ⟨tame, tame⟩ ((pending_alive alive).trans pending)
    (pending_dead rfl) rfl rfl rfl
  exact ⟨⟨h.sized, within, h.ids⟩, exact.trans (and_congr_right fun _ => none_left)⟩

/-- If the upstream hands out each page once, then so does the allocator. -/
theorem Exact.returned_nodup {s : BatchRun Page} (h : s.Exact) (distinct : s.obtained.Nodup) :
    s.returned.Nodup := by
  rw [h.places, add_assoc] at distinct
  exact (Multiset.nodup_add.mp distinct).1

variable [Zero Page] {s s' : BatchRun Page} {m : BatchMove Page}

theorem Inv.setBatchSize (h : s.Inv) (alive : s.alive = true) (tame : s.wild = false)
    {batchSize : Nat} (pos : 0 < batchSize) :
    let s' := { s with allocator := s.allocator.setBatchSize batchSize }
    s'.Inv ∧ (s'.Exact ↔ s.Exact ∧ s.careful (.setBatchSize batchSize) s') := by
  intro s'
  obtain ⟨sized, none⟩ := BatchPageAllocator.sized_setBatchSize (a := s.allocator) pos
  obtain ⟨within, exact⟩ := h.lose s' 0 s.allocator.pending ⟨tame, tame⟩
    (by rw [pending_alive alive, zero_add]) ((pending_alive (s := s') alive).trans none) rfl rfl
    (add_zero _).symm
  refine ⟨⟨sized, within, h.ids⟩, exact.trans (and_congr_right fun _ => ?_)⟩
  rw [BatchPageAllocator.pending, Finset.sum_eq_zero_iff]
  simp [careful]

/-- An `allocate` that finds or gets a page. -/
theorem Inv.allocate (h : s.Inv) (alive : s.alive = true) (tame : s.wild = false)
    (configured : s.allocator.configured = true) {index : Nat} (known : index < s.threadIds)
    (fresh : Nat → Page) : ∃ r, s.allocator.allocate index fresh = some r ∧
      let s' : BatchRun Page := { s with
        allocator := r.allocator
        obtained := s.obtained + r.obtained
        returned := r.page ::ₘ s.returned }
      s'.Inv ∧ (s'.Exact ↔ s.Exact) := by
  obtain ⟨r, ret, sized, moved⟩ :=
    h.sized.allocate configured (known.trans_le h.ids) fresh
  refine ⟨r, ret, ?_⟩
  intro s'
  have pending' : s'.pending = r.allocator.pending := pending_alive alive
  have total : s'.returned + s'.pending + s'.givenBack =
      s.returned + s.pending + s.givenBack + ↑r.obtained := by
    rw [pending', pending_alive alive]
    calc r.page ::ₘ s.returned + r.allocator.pending + s.givenBack
        = s.returned + ({r.page} + r.allocator.pending) + s.givenBack := by
          rw [← Multiset.singleton_add]
          abel
      _ = s.returned + s.allocator.pending + s.givenBack + ↑r.obtained := by
          rw [moved]
          abel
  refine ⟨⟨sized, ?_, h.ids⟩, ?_⟩
  · rw [total]
    exact add_le_add_left h.within _
  · rw [exact_iff_places (s := s') tame, exact_iff_places tame, total]
    exact add_left_inj _

theorem Inv.step (h : s.Inv) (hs : s.step m = some s') :
    s'.Inv ∧ (s'.Exact ↔ s.Exact ∧ s.careful m s') := by
  by_cases running : s.alive = true ∧ s.wild = false
  · obtain ⟨alive, tame⟩ := running
    cases m with
    | threadId =>
      simp only [BatchRun.step, if_pos (And.intro alive tame)] at hs
      obtain ⟨few, hs⟩ := Option.ite_none_right_eq_some.mp hs
      cases hs
      exact ⟨⟨h.sized, h.within, few⟩, fun e => ⟨⟨e.tame, e.places⟩, trivial⟩,
        fun e => ⟨e.1.tame, e.1.places⟩⟩
    | setBatchSize batchSize =>
      simp only [BatchRun.step, if_pos (And.intro alive tame)] at hs
      obtain ⟨pos, hs⟩ := Option.ite_none_right_eq_some.mp hs
      cases hs
      exact h.setBatchSize alive tame pos
    | allocate index fresh =>
      simp only [BatchRun.step, if_pos (And.intro alive tame)] at hs
      obtain ⟨known, hs⟩ := Option.ite_none_right_eq_some.mp hs
      by_cases configured : s.allocator.configured = true
      · obtain ⟨r, ret, inv, exact⟩ := h.allocate alive tame configured known fresh
        rw [ret] at hs
        cases hs
        exact ⟨inv, exact.trans (and_iff_left configured).symm⟩
      · rw [h.sized.allocate_default configured] at hs
        cases hs
        exact ⟨⟨h.sized, h.within, h.ids⟩,
          iff_of_false (fun e => nomatch e.tame) fun e => configured e.2⟩
    | destroy =>
      simp only [BatchRun.step, if_pos (And.intro alive tame)] at hs
      cases hs
      exact h.destroy alive tame
  · unfold BatchRun.step at hs
    rw [if_neg running] at hs
    cases hs

/-- In every run, each prefetched page is returned once or given back once, and nothing else is
touched, if and only if every call is careful. -/
theorem exact_iff_careful {moves : List (BatchMove Page)}
    (run : (batchMachine Page).run (initial Page) moves = some s) :
    s.Exact ↔ (batchMachine Page).Along careful (initial Page) moves := by
  have along := Machine.Along.of_run run
  rw [along.holds_iff (I := Inv) (P := Exact) run inv_initial fun s m s' inv hs _ => inv.step hs]
  exact and_iff_right exact_initial

/-- Only slots of thread ids that have been given out hold pages. -/
structure Few (s : BatchRun Page) : Prop where
  blocks : s.allocator.cache.blockNum ≤ (s.threadIds + 127) / 128
  beyond : ∀ i < s.allocator.cache.size, s.threadIds ≤ i → (s.allocator.cache.element i).rest = []

theorem Few.step (h : s.Few) (inv : s.Inv) (hs : s.step m = some s') : s'.Few := by
  by_cases running : s.alive = true ∧ s.wild = false
  · cases m with
    | threadId =>
      simp only [BatchRun.step, if_pos running] at hs
      obtain ⟨-, hs⟩ := Option.ite_none_right_eq_some.mp hs
      cases hs
      refine ⟨h.blocks.trans (Nat.div_le_div_right ?_), fun i lt le => h.beyond i lt ?_⟩
      · simp only
        omega
      · exact (Nat.le_succ _).trans le
    | setBatchSize batchSize =>
      simp only [BatchRun.step, if_pos running] at hs
      obtain ⟨-, hs⟩ := Option.ite_none_right_eq_some.mp hs
      cases hs
      refine ⟨h.blocks, fun i lt le => ?_⟩
      have lt : i < s.allocator.cache.size := lt
      simp only [BatchPageAllocator.setBatchSize, lt, if_true]
      exact BatchPageAllocator.rest_construct
    | allocate index fresh =>
      simp only [BatchRun.step, if_pos running] at hs
      obtain ⟨known, hs⟩ := Option.ite_none_right_eq_some.mp hs
      split at hs
      · rename_i r ret
        cases hs
        obtain ⟨slot, eq⟩ := BatchPageAllocator.allocate_setSlot ret
        refine ⟨?_, fun i lt le => ?_⟩ <;> simp only [eq]
        · have blocks := h.blocks
          have := EnumerableThreadLocal.expectBlockNum_ensure (known.trans_le inv.ids)
          simp only [BatchPageAllocator.setSlot, BatchPageAllocator.ensure,
            EnumerableThreadLocal.ensure, this]
          omega
        · have other : i ≠ index := by
            simp only at le
            omega
          simp only [BatchPageAllocator.setSlot, Function.update_of_ne other,
            BatchPageAllocator.ensure]
          split_ifs with old
          · exact h.beyond i old le
          · exact BatchPageAllocator.rest_construct
      · cases hs
        exact ⟨h.blocks, h.beyond⟩
    | destroy =>
      simp only [BatchRun.step, if_pos running] at hs
      cases hs
      exact ⟨h.blocks, h.beyond⟩
  · unfold BatchRun.step at hs
    rw [if_neg running] at hs
    cases hs

/-- With at most 511 blocks of slots, the destructor visits all slots with pages. -/
theorem careful_destroy_of_run {moves : List (BatchMove Page)}
    (run : (batchMachine Page).run (initial Page) moves = some s) (few : s.threadIds ≤ 65408) :
    s.careful .destroy s' := by
  have along := Machine.Along.of_run run
  obtain ⟨-, blocks, beyond⟩ := along.inv (I := fun s => s.Inv ∧ s.Few) run
    ⟨inv_initial, Nat.zero_le _, fun i lt => absurd lt (Nat.not_lt_zero i)⟩
    fun s m s' inv hs _ => ⟨(inv.1.step hs).1, inv.2.step inv.1 hs⟩
  intro i lt visited
  refine beyond i lt ?_
  rw [EnumerableThreadLocal.visited] at visited
  rw [EnumerableThreadLocal.size_eq] at visited lt
  simp only [u16] at visited
  omega

instance (s s' : BatchRun Page) : (m : BatchMove Page) → Decidable (s.careful m s')
  | .threadId => .isTrue trivial
  | .setBatchSize _ => inferInstanceAs (Decidable (∀ i < _, _))
  | .allocate _ _ => inferInstanceAs (Decidable (_ = true))
  | .destroy => inferInstanceAs (Decidable (∀ i < _, _))

/-- Two threads, and a new batch size while all buffers are empty. -/
def twoThreads : List (BatchMove Nat) :=
  [.setBatchSize 2, .threadId, .allocate 0 (· + 10), .threadId, .allocate 1 (· + 20), .allocate 0 0,
    .allocate 1 0, .setBatchSize 3, .allocate 1 (· + 30), .destroy]

theorem exact_iff_careful_twoThreads :
    ∃ s, (batchMachine Nat).run (initial Nat) twoThreads = some s ∧ s.Exact ∧
      s.returned = {10, 11, 20, 21, 30} ∧ s.givenBack = {31, 32} := by
  obtain ⟨s, run, seen⟩ := Option.map_eq_some_iff.mp
    (show ((batchMachine Nat).run (initial Nat) twoThreads).map (fun s => (s.returned, s.givenBack)) =
      some ({10, 11, 20, 21, 30}, {31, 32}) by decide +kernel)
  have careful : (batchMachine Nat).Along careful (initial Nat) twoThreads := by decide +kernel
  simp only [Prod.mk.injEq] at seen
  exact ⟨s, run, (exact_iff_careful run).mpr careful, seen.1, seen.2⟩

/-- A default-constructed allocator writes to the null pointer at its first `allocate`. With a
batch size of two, a second `set_batch_size` loses the page that has been prefetched. -/
theorem setBatchSize_loses_page :
    (∃ s : BatchRun Nat, (batchMachine Nat).run (initial Nat) [.threadId, .allocate 0 (· + 10)] =
      some s ∧ s.wild = true) ∧
    ∃ s : BatchRun Nat, (batchMachine Nat).run (initial Nat)
        [.setBatchSize 2, .threadId, .allocate 0 (· + 10), .setBatchSize 2, .destroy] = some s ∧
      s.obtained = {10, 11} ∧ s.returned = {10} ∧ s.givenBack = 0 ∧ s.alive = false := by
  constructor
  · exact Option.map_eq_some_iff.mp (show ((batchMachine Nat).run (initial Nat)
      [.threadId, .allocate 0 (· + 10)]).map BatchRun.wild = some true by decide +kernel)
  · obtain ⟨s, run, seen⟩ := Option.map_eq_some_iff.mp
      (show ((batchMachine Nat).run (initial Nat)
          [.setBatchSize 2, .threadId, .allocate 0 (· + 10), .setBatchSize 2, .destroy]).map
            (fun s => (s.obtained, s.returned, s.givenBack, s.alive)) =
          some ({10, 11}, {10}, 0, false) by decide +kernel)
    simp only [Prod.mk.injEq] at seen
    exact ⟨s, run, seen⟩

end BatchRun

end Fuxi.Mm
