import Fuxi.Base.FlatObjectQueue

/-!
# One thread uses a `FlatObjectQueue`

`Get` and `Put` of a single caller, with the states of the objects. The ids of the free objects
and the ids that are handed out are together the ids that `Initialize` has put into the ring, as
long as `Put` is not applied to a free object that the ring still takes.
-/

namespace Fuxi.Base

open Lib IdPool

/-- `FlatObjectQueue<T>`; an object is named by its distance from `storage_`. -/
structure FlatObjectQueue (β : Type*) where
  queueCapacity : Nat
  freeIds : RteRing Int
  storage : Int → β

namespace FlatObjectQueue

variable {β : Type*}

/-- `Initialize` on raw memory; `blank` is the state of a default-constructed object. -/
def initializedPool (blank : β) (raw : Int → β) (num : Nat) : FlatObjectQueue β where
  queueCapacity := num
  freeIds := (initialized num).1
  storage i := if 0 ≤ i ∧ i < num then blank else raw i

/-- `Get`, or `none` for a null pointer. -/
def get (q : FlatObjectQueue β) : FlatObjectQueue β × Option Int :=
  let r := q.freeIds.doDequeue (fun _ => -1) 1
  ({ q with freeIds := r.1 }, if r.2.2.1 = 0 then none else some (r.2.1 0))

/-- `Put`; the object is reset before the ring is asked. -/
def put (blank : β) (q : FlatObjectQueue β) (obj : Int) : FlatObjectQueue β × Int :=
  let idx := i32 obj
  if inRange q.queueCapacity idx then
    let r := q.freeIds.doEnqueue (fun _ => idx) 1
    ({ q with freeIds := r.1, storage := Function.update q.storage obj blank },
      if r.2.2.1 ≠ 1 then -1 else 0)
  else (q, -1)

/-- `Put` returns -1 and leaves the ring of free ids alone. -/
def PutRejected (blank : β) (q : FlatObjectQueue β) (obj : Int) : Prop :=
  (q.put blank obj).2 = -1 ∧ (q.put blank obj).1.freeIds = q.freeIds

/-! ## Runs -/

/-- The calls, and what the caller does to an object that it holds. -/
inductive PoolOp (β : Type*)
  | get
  | put (obj : Int)
  | write (obj : Int) (value : β)

/-- A pool and the objects that are handed out. -/
structure PoolRun (β : Type*) where
  queue : FlatObjectQueue β
  out : List Int := []

/-- One call; `Put` gets any element of a pool of `num` objects. -/
def PoolRun.step (blank : β) (num : Nat) (s : PoolRun β) : PoolOp β → Option (PoolRun β)
  | .get => some ⟨s.queue.get.1, s.queue.get.2.toList ++ s.out⟩
  | .put obj =>
    if 0 ≤ obj ∧ obj < num then some ⟨(s.queue.put blank obj).1, s.out.erase obj⟩ else none
  | .write obj value =>
    if obj ∈ s.out then
      some { s with queue.storage := Function.update s.queue.storage obj value }
    else none

/-- Runs after `Initialize`. -/
def poolMachine (blank : β) (raw : Int → β) (num : Nat) : Machine (PoolRun β) (PoolOp β) where
  start s := s = { queue := initializedPool blank raw num }
  step := PoolRun.step blank num

/-- `Put` gets an object that is handed out. -/
def owned (s : PoolRun β) : PoolOp β → PoolRun β → Prop
  | .put obj, _ => obj ∈ s.out
  | _, _ => True

/-- Nothing is taken back: the index is out of range, or no object is handed out of as many as
the ring has slots. -/
def TakesNone (num : Nat) (s : PoolRun β) (obj : Int) : Prop :=
  inRange num (i32 obj) = false ∨ bitCeil (ids num).length = (ids num).length ∧ s.out = []

/-- `Put` gets an object that is handed out, or one that cannot be taken back. -/
def guarded (num : Nat) (s : PoolRun β) : PoolOp β → PoolRun β → Prop
  | .put obj, _ => obj ∈ s.out ∨ TakesNone num s obj
  | _, _ => True

instance (s : PoolRun β) : (op : PoolOp β) → (t : PoolRun β) → Decidable (owned s op t)
  | .put obj, _ => inferInstanceAs (Decidable (obj ∈ s.out))
  | .get, _ | .write .., _ => inferInstanceAs (Decidable True)

instance (num : Nat) (s : PoolRun β) (obj : Int) : Decidable (TakesNone num s obj) :=
  inferInstanceAs (Decidable (_ ∨ _))

instance (num : Nat) (s : PoolRun β) :
    (op : PoolOp β) → (t : PoolRun β) → Decidable (guarded num s op t)
  | .put obj, _ => inferInstanceAs (Decidable (obj ∈ s.out ∨ TakesNone num s obj))
  | .get, _ | .write .., _ => inferInstanceAs (Decidable True)

/-- The objects are free or handed out, each of them once, and the free ones are as new. -/
structure Conserves (blank : β) (num : Nat) (s : PoolRun β) : Prop where
  partition : (s.queue.freeIds.contents ++ s.out).Perm ((List.range num).map Int.ofNat)
  get_null : s.queue.get.2 = none ↔ ∀ i < num, (i : Int) ∈ s.out
  put_ok : ∀ obj ∈ s.out, (s.queue.put blank obj).2 = 0
  fresh : ∀ obj, s.queue.get.2 = some obj → s.queue.get.1.storage obj = blank

/-- The invariant. Without ids the ring stays as `Initialize` has left it. -/
structure Pooled (blank : β) (num : Nat) (s : PoolRun β) : Prop where
  capacity : s.queue.queueCapacity = num
  partition : (s.queue.freeIds.contents ++ s.out).Perm (ids num)
  holds : ids num ≠ [] → s.queue.freeIds.Holds s.queue.freeIds.contents
  size : ids num ≠ [] → s.queue.freeIds.size = bitCeil (ids num).length
  unused : ids num = [] → s.queue.freeIds = (initialized num).1
  fresh : ∀ i ∈ s.queue.freeIds.contents, s.queue.storage i = blank

/-! ## The ring after `Initialize` -/

theorem mem_ids {num : Nat} {x : Int} : x ∈ ids num ↔ 0 ≤ x ∧ x < i32 num := by
  simp only [ids, List.mem_map, List.mem_range, Int.ofNat_eq_natCast]
  constructor
  · rintro ⟨i, hi, rfl⟩
    omega
  · rintro ⟨nonneg, lt⟩
    exact ⟨x.toNat, by omega, by omega⟩

theorem some_of_inRange {num : Nat} {x : Int} (range : inRange num x = true) : ids num ≠ [] := by
  have : 0 ≤ x ∧ x < i32 num := by
    simp only [inRange, decide_eq_true_eq] at range
    omega
  exact List.ne_nil_of_mem (mem_ids.mpr this)

theorem length_ids (num : Nat) : (ids num).length = (i32 num).toNat := by simp [ids]

/-- The index of an object that the ring knows is in range. -/
theorem i32_of_mem_ids {num : Nat} {x : Int} (h : x ∈ ids num) : i32 x = x := by
  obtain ⟨nonneg, lt⟩ := mem_ids.mp h
  have : i32 num < 2147483648 := by unfold i32; omega
  exact i32_of_lt (by omega) (by omega)

theorem i32_le (num : Nat) : i32 num ≤ num := by
  unfold i32
  omega

theorem u32_of_ids {num : Nat} (some : ids num ≠ []) : u32 num = (ids num).length := by
  rw [← List.length_pos_iff, length_ids] at some
  rw [length_ids]
  unfold u32
  unfold i32 at some ⊢
  omega

theorem init_size_ids {num : Nat} (some : ids num ≠ []) :
    (RteRing.init (0 : Int) (u32 num) false false).size = bitCeil (ids num).length := by
  have small : (ids num).length ≤ 2147483648 := by
    rw [length_ids]
    unfold i32
    omega
  rw [u32_of_ids some, RteRing.init_size _ _ _ small]

/-- The ring takes all ids. -/
theorem initialized_ids (num : Nat) : (initialized num).2 = ids num := by
  rw [initialized, ((stocked_init ..).fill (ids num)).2.2]
  by_cases none : ids num = []
  · rw [none, List.take_nil]
  · apply List.take_of_length_le
    rw [init_size_ids none, List.length_nil, Nat.sub_zero]
    exact le_bitCeil _

theorem initialized_size {num : Nat} (some : ids num ≠ []) :
    (initialized num).1.size = bitCeil (ids num).length := by
  rw [initialized, ((stocked_init ..).fill (ids num)).2.1, init_size_ids some]

theorem initialized_holds {num : Nat} (some : ids num ≠ []) :
    (initialized num).1.Holds (ids num) := by
  have stocked := initialized_stocked num
  rw [initialized_ids] at stocked
  apply stocked.holds
  rw [initialized_size some]
  exact bitCeil_pos _

/-- Without ids the ring is empty. -/
theorem initialized_none {num : Nat} (none : ids num = []) :
    (initialized num).1 = RteRing.init 0 (u32 num) false false := by
  rw [initialized, none]
  rfl

theorem contents_initialized (num : Nat) : (initialized num).1.contents = ids num := by
  by_cases none : ids num = []
  · have empty : sub32 (RteRing.init (0 : Int) (u32 num) false false).prod.tail
        (RteRing.init (0 : Int) (u32 num) false false).cons.head = 0 :=
      sub32_eq le_rfl (Nat.zero_lt_succ _)
    rw [initialized_none none, none, RteRing.contents, empty]
    rfl
  · exact (initialized_holds none).contents_eq

theorem doDequeue_none {num : Nat} (none : ids num = []) :
    (initialized num).1.doDequeue (fun _ => -1) 1 = ((initialized num).1, fun _ => -1, 0, 0) := by
  have empty : (initialized num).1.entries .cons 0 = 0 := by
    rw [initialized_none none, RteRing.entries]
    exact sub32_eq le_rfl (Nat.zero_lt_succ _)
  have head : ((initialized num).1.ht .cons).head = 0 := by
    rw [initialized_none none]
    rfl
  simp [RteRing.doDequeue, RteRing.deal, head, empty]

/-! ## The calls -/

namespace Pooled

variable {blank : β} {num : Nat} {s : PoolRun β} (h : Pooled blank num s)
include h

theorem mem_ids_of_out {obj : Int} (out : obj ∈ s.out) : obj ∈ ids num :=
  h.partition.subset (List.mem_append_right _ out)

/-- The ids are free or handed out, but not both. -/
theorem nodup : (s.queue.freeIds.contents ++ s.out).Nodup :=
  h.partition.nodup_iff.mpr (ids_nodup num)

/-- What is free is not handed out. -/
theorem not_out {i : Int} (free : i ∈ s.queue.freeIds.contents) : i ∉ s.out := fun out =>
  (List.nodup_append.mp h.nodup).2.2 i free i out rfl

/-- `Get` returns null from an empty ring, and else the oldest free object. -/
theorem get_cases :
    s.queue.freeIds.contents = [] ∧ s.queue.get = (s.queue, none) ∨
    ∃ id rest r, s.queue.freeIds.contents = id :: rest ∧ r.Holds rest ∧
      r.size = s.queue.freeIds.size ∧
        s.queue.get = ({ s.queue with freeIds := r }, some id) := by
  by_cases unused : ids num = []
  · left
    have empty := h.partition
    rw [unused, List.perm_nil, List.append_eq_nil_iff] at empty
    have taken : s.queue.freeIds.doDequeue (fun _ => -1) 1 =
        (s.queue.freeIds, fun _ => -1, 0, 0) := by
      rw [h.unused unused, doDequeue_none unused]
    exact ⟨empty.1, by simp [get, taken]⟩
  · have holds := h.holds unused
    cases free : s.queue.freeIds.contents with
    | nil =>
      rw [free] at holds
      have taken := holds.doDequeue_none (fun _ => -1) (n := 1) (Or.inl (by simp))
      exact Or.inl ⟨rfl, by simp [get, taken]⟩
    | cons id rest =>
      rw [free] at holds
      obtain ⟨r, taken, size, holds'⟩ := holds.doDequeue_some (fun _ => -1) (n := 1) (by simp)
      exact Or.inr ⟨id, rest, r, rfl, by simpa using holds', size, by simp [get, taken]⟩

theorem get_none_iff : s.queue.get.2 = none ↔ s.queue.freeIds.contents = [] := by
  obtain ⟨free, eq⟩ | ⟨id, rest, r, free, -, -, eq⟩ := h.get_cases <;> simp [eq, free]

/-- `Get` hands out a free object and leaves it as it is. -/
theorem mem_of_get {obj : Int} (got : s.queue.get.2 = some obj) :
    obj ∈ s.queue.freeIds.contents ∧ s.queue.get.1.storage = s.queue.storage := by
  obtain ⟨-, eq⟩ | ⟨id, rest, r, free, -, -, eq⟩ := h.get_cases
  · rw [eq] at got
    cases got
  · rw [eq] at got ⊢
    cases got
    rw [free]
    exact ⟨List.mem_cons_self, rfl⟩

/-- An object in range is taken back if the ring has a slot for it. -/
theorem put_room {obj : Int} (range : inRange num (i32 obj) = true) (some : ids num ≠ [])
    (room : s.queue.freeIds.contents.length < s.queue.freeIds.size) :
    ∃ r, r.Holds (s.queue.freeIds.contents ++ [i32 obj]) ∧ r.size = s.queue.freeIds.size ∧
      s.queue.put blank obj = ({ s.queue with
        freeIds := r
        storage := Function.update s.queue.storage obj blank }, 0) := by
  obtain ⟨r, given, size, holds⟩ :=
    (h.holds some).doEnqueue_some (fun _ => i32 obj) (n := 1) (by omega)
  refine ⟨r, by simpa using holds, size, ?_⟩
  simp only [put, h.capacity, range, given, if_true]
  rfl

/-- An object in range is rejected if the ring is full, and has been reset then. -/
theorem put_full {obj : Int} (range : inRange num (i32 obj) = true) (some : ids num ≠ [])
    (full : ¬s.queue.freeIds.contents.length < s.queue.freeIds.size) :
    s.queue.put blank obj = ({ s.queue with
      storage := Function.update s.queue.storage obj blank }, -1) := by
  have given := (h.holds some).doEnqueue_none (fun _ => i32 obj) (n := 1) (by omega)
  simp only [put, h.capacity, range, given, if_true]
  rfl

theorem put_out_of_range {obj : Int} (range : inRange num (i32 obj) = false) :
    s.queue.put blank obj = (s.queue, -1) := by
  simp [put, h.capacity, range]

/-- As many slots of the ring are taken as objects are not handed out. -/
theorem length_contents :
    s.queue.freeIds.contents.length + s.out.length = (ids num).length := by
  rw [← List.length_append, h.partition.length_eq]

/-- The ring is full if nothing is handed out and there are as many ids as slots. -/
theorem room_iff (some : ids num ≠ []) :
    s.queue.freeIds.contents.length < s.queue.freeIds.size ↔
      ¬(bitCeil (ids num).length = (ids num).length ∧ s.out = []) := by
  have length := h.length_contents
  have le := le_bitCeil (ids num).length
  rw [h.size some, ← List.length_eq_zero_iff]
  omega

/-- A free object is rejected exactly if the pool takes nothing back. -/
theorem putRejected_iff {obj : Int} :
    s.queue.PutRejected blank obj ↔ TakesNone num s obj := by
  unfold PutRejected TakesNone
  cases range : inRange num (i32 obj) with
  | false => simp [h.put_out_of_range range]
  | true =>
    have some := some_of_inRange range
    have room_iff := h.room_iff some
    by_cases room : s.queue.freeIds.contents.length < s.queue.freeIds.size
    · obtain ⟨r, -, -, eq⟩ := h.put_room range some room
      simp [eq, room_iff.mp room]
    · rw [h.put_full range some room]
      simpa using not_not.mp fun no => room (room_iff.mpr no)

/-- An object that is handed out is taken back. -/
theorem put_owned {obj : Int} (out : obj ∈ s.out) :
    ∃ r, r.Holds (s.queue.freeIds.contents ++ [obj]) ∧ r.size = s.queue.freeIds.size ∧
      s.queue.put blank obj = ({ s.queue with
        freeIds := r
        storage := Function.update s.queue.storage obj blank }, 0) := by
  have mem := h.mem_ids_of_out out
  have some := List.ne_nil_of_mem mem
  have room := (h.room_iff some).mpr fun full => List.ne_nil_of_mem out full.2
  have range : inRange num (i32 obj) = true := by
    rw [i32_of_mem_ids mem]
    exact inRange_of_mem mem
  have := h.put_room range some room
  rwa [i32_of_mem_ids mem] at this

/-- A reset leaves the free objects as new, and makes the object new. -/
theorem reset_fresh (obj : Int) {i : Int} (mem : i ∈ s.queue.freeIds.contents ∨ i = obj) :
    Function.update s.queue.storage obj blank i = blank := by
  by_cases same : i = obj
  · subst same
    exact Function.update_self ..
  · rw [Function.update_of_ne same]
    exact h.fresh i (mem.resolve_right same)

/-! ## Steps -/

theorem get_step : Pooled blank num ⟨s.queue.get.1, s.queue.get.2.toList ++ s.out⟩ := by
  obtain ⟨-, eq⟩ | ⟨id, rest, r, free, holds, size, eq⟩ := h.get_cases
  · rw [eq]
    exact h
  · have contents : r.contents = rest := holds.contents_eq
    have some : ids num ≠ [] := by
      refine List.ne_nil_of_mem (h.partition.subset (a := id) ?_)
      rw [free]
      exact List.mem_cons_self
    rw [eq]
    refine ⟨h.capacity, ?_, fun _ => ?_, fun _ => ?_, fun none => absurd none some, fun i hi => ?_⟩
    · have := h.partition
      rw [free] at this
      simp only [contents, Option.toList_some, List.singleton_append]
      exact List.perm_middle.trans this
    · simp only [contents]
      exact holds
    · exact size.trans (h.size some)
    · simp only [contents] at hi
      refine h.fresh i ?_
      rw [free]
      exact List.mem_cons_of_mem id hi

theorem put_step {obj : Int} (out : obj ∈ s.out) :
    Pooled blank num ⟨(s.queue.put blank obj).1, s.out.erase obj⟩ := by
  obtain ⟨r, holds, size, eq⟩ := h.put_owned out
  have contents : r.contents = s.queue.freeIds.contents ++ [obj] := holds.contents_eq
  have some := List.ne_nil_of_mem (h.mem_ids_of_out out)
  rw [eq]
  refine ⟨h.capacity, ?_, fun _ => ?_, fun _ => ?_, fun none => absurd none some, fun i hi => ?_⟩
  · simp only [contents, List.append_assoc, List.singleton_append]
    exact ((List.perm_cons_erase out).symm.append_left _).trans h.partition
  · simp only [contents]
    exact holds
  · exact size.trans (h.size some)
  · simp only [contents, List.mem_append, List.mem_singleton] at hi
    exact h.reset_fresh obj hi

/-- Where nothing is taken back a free object may be reset, but it stays where it is. -/
theorem put_rejected_step {obj : Int} (out : obj ∉ s.out) (none : TakesNone num s obj) :
    Pooled blank num ⟨(s.queue.put blank obj).1, s.out.erase obj⟩ := by
  rw [List.erase_of_not_mem out]
  cases range : inRange num (i32 obj) with
  | false =>
    rw [h.put_out_of_range range]
    exact h
  | true =>
    have some := some_of_inRange range
    have full : ¬s.queue.freeIds.contents.length < s.queue.freeIds.size := fun room =>
      (h.room_iff some).mp room (none.resolve_left (by simp [range]))
    rw [h.put_full range some full]
    exact ⟨h.capacity, h.partition, h.holds, h.size, h.unused, fun i hi =>
      h.reset_fresh obj (Or.inl hi)⟩

/-- The caller writes only to objects that it holds, and these are not free. -/
theorem write_step {obj : Int} (out : obj ∈ s.out) (value : β) :
    Pooled blank num
      { s with queue.storage := Function.update s.queue.storage obj value } := by
  refine ⟨h.capacity, h.partition, h.holds, h.size, h.unused, fun i hi => ?_⟩
  have ne : i ≠ obj := fun eq => h.not_out hi (eq ▸ out)
  simp only [Function.update_of_ne ne]
  exact h.fresh i hi

theorem step {op : PoolOp β} {s' : PoolRun β} (hs : s.step blank num op = some s')
    (ok : guarded num s op s') : Pooled blank num s' := by
  cases op with
  | get =>
    cases hs
    exact h.get_step
  | put obj =>
    simp only [PoolRun.step] at hs
    split_ifs at hs
    cases hs
    by_cases out : obj ∈ s.out
    · exact h.put_step out
    · exact h.put_rejected_step out (ok.resolve_left out)
  | write obj value =>
    simp only [PoolRun.step] at hs
    split_ifs at hs with out
    cases hs
    exact h.write_step out value

end Pooled

/-! ## Runs of a pool -/

variable {blank : β} {raw : Int → β} {num : Nat} {s : PoolRun β}

theorem initializedPool_freeIds (blank : β) (raw : Int → β) (num : Nat) :
    (initializedPool blank raw num).freeIds = (initialized num).1 := by
  -- the ring is a variable here, since the loop of `Initialize` must not be unfolded
  have field : ∀ (ring : RteRing Int) (storage : Int → β),
      (⟨num, ring, storage⟩ : FlatObjectQueue β).freeIds = ring := fun _ _ => rfl
  exact field (initialized num).1 _

/-- A pool whose ring has been filled and whose objects are new. -/
theorem Pooled.of_initialized {q : FlatObjectQueue β} (capacity : q.queueCapacity = num)
    (ring : q.freeIds = (initialized num).1)
    (fresh : ∀ i, 0 ≤ i → i < (num : Int) → q.storage i = blank) :
    Pooled blank num { queue := q } := by
  have contents := contents_initialized num
  rw [← ring] at contents
  refine ⟨capacity, ?_, fun some => ?_, fun some => ?_, fun _ => ring, fun i hi => ?_⟩
  · rw [contents, List.append_nil]
  · rw [contents, ring]
    exact initialized_holds some
  · rw [ring]
    exact initialized_size some
  · rw [contents] at hi
    obtain ⟨nonneg, lt⟩ := mem_ids.mp hi
    exact fresh i nonneg (lt.trans_le (i32_le num))

theorem pooled_of_reach (h : (poolMachine blank raw num).Reach (guarded num) s) :
    Pooled blank num s := by
  refine h.inv ?_ fun s op s' pooled hs ok => pooled.step hs ok
  rintro s rfl
  exact .of_initialized rfl (initializedPool_freeIds blank raw num)
    fun i nonneg lt => if_pos ⟨nonneg, lt⟩

/-- In every run in which `Put` gets only objects that are handed out, the pool of less than
`2^31` objects conserves them. -/
theorem conserves_of_reach (small : num < 2147483648)
    (h : (poolMachine blank raw num).Reach owned s) : Conserves blank num s := by
  have pooled : Pooled blank num s := pooled_of_reach (h.mono fun s op s' ok => by
    cases op with
    | put obj => exact Or.inl ok
    | _ => trivial)
  have all : ids num = (List.range num).map Int.ofNat := by
    rw [ids, i32_of_lt (by omega) (by omega), Int.toNat_natCast]
  have partition := pooled.partition
  rw [all] at partition
  refine ⟨partition, pooled.get_none_iff.trans ⟨fun free i lt => ?_, fun outs => ?_⟩,
    fun obj out => ?_, fun obj got => ?_⟩
  · rw [free, List.nil_append] at partition
    exact partition.mem_iff.mpr (List.mem_map.mpr ⟨i, List.mem_range.mpr lt, rfl⟩)
  · refine List.eq_nil_iff_forall_not_mem.mpr fun id free => ?_
    have known := partition.subset (List.mem_append_left _ free)
    obtain ⟨i, lt, rfl⟩ := List.mem_map.mp known
    exact pooled.not_out free (outs i (List.mem_range.mp lt))
  · obtain ⟨r, -, -, eq⟩ := pooled.put_owned out
    rw [eq]
  · obtain ⟨free, storage⟩ := pooled.mem_of_get got
    rw [storage]
    exact pooled.fresh obj free

/-- An object is taken, changed and put back, and then all objects are taken. -/
def changeAndTakeAll : List (PoolOp Nat) :=
  [.get, .write 0 7, .put 0, .get, .get, .get]

/-- In a pool of three objects the changed one comes last and is as new. -/
theorem conserves_of_reach_three :
    let start : PoolRun Nat := { queue := initializedPool 0 (fun _ => 5) 3 }
    ∃ s, (poolMachine 0 (fun _ => 5) 3).run start changeAndTakeAll = some s ∧
      s.out = [0, 2, 1] ∧ s.queue.storage 0 = 0 ∧ Conserves 0 3 s := by
  intro start
  have along : (poolMachine 0 (fun _ => 5) 3).Along owned start changeAndTakeAll := by
    decide +kernel
  have seen : ((poolMachine 0 (fun _ => 5) 3).run start changeAndTakeAll).map
      (fun s => (s.out, s.queue.storage 0)) = some ([0, 2, 1], 0) := by decide +kernel
  obtain ⟨s, run, reach, seen⟩ := Machine.Reach.of_along_seen (.start rfl) along seen
  obtain ⟨out, new⟩ := Prod.mk.inj seen
  exact ⟨s, run, out, new, conserves_of_reach (by decide) reach⟩

/-- In every run in which `Put` gets only objects that are handed out or cannot be taken back, a
free object is rejected exactly if the pool takes nothing back, no id is twice in the ring, and
`Get` hands out no object a second time. -/
theorem putRejected_iff_of_reach (h : (poolMachine blank raw num).Reach (guarded num) s) :
    (∀ obj, obj ∉ s.out → (s.queue.PutRejected blank obj ↔ TakesNone num s obj)) ∧
      s.queue.freeIds.contents.Nodup ∧ ∀ obj, s.queue.get.2 = some obj → obj ∉ s.out := by
  have pooled := pooled_of_reach h
  exact ⟨fun obj _ => pooled.putRejected_iff, (List.nodup_append.mp pooled.nodup).1,
    fun obj got => pooled.not_out (pooled.mem_of_get got).1⟩

/-- The ring of four objects is full at first and takes none of them back. -/
theorem putRejected_iff_of_reach_four :
    let start : PoolRun Nat := { queue := initializedPool 0 (fun _ => 5) 4 }
    ∃ s, (poolMachine 0 (fun _ => 5) 4).run start [.put 2, .get, .put 0] = some s ∧
      s.queue.PutRejected 0 2 ∧ s.queue.freeIds.contents.Nodup := by
  intro start
  have along : (poolMachine 0 (fun _ => 5) 4).Along (guarded 4) start [.put 2, .get, .put 0] := by
    decide +kernel
  have seen : ((poolMachine 0 (fun _ => 5) 4).run start [.put 2, .get, .put 0]).map
      (fun s => s.out) = some [] := by decide +kernel
  obtain ⟨s, run, reach, seen⟩ := Machine.Reach.of_along_seen (.start rfl) along seen
  have out : s.out = [] := seen
  obtain ⟨rejected, nodup, -⟩ := putRejected_iff_of_reach reach
  refine ⟨s, run, (rejected 2 ?_).mpr (Or.inr ⟨by decide +kernel, out⟩), nodup⟩
  rw [out]
  exact List.not_mem_nil

/-- A free object is put back and taken twice. -/
def putFree : List (PoolOp Nat) := [.get, .put 1, .get, .get, .get]

/-- In a pool of three objects the ring has a slot to spare: it takes object 1, which is free, and
`Get` hands out object 1 twice. -/
theorem put_takes_free :
    (∃ s, (poolMachine 0 (fun _ => 5) 3).Reach Machine.free s ∧ 1 ∉ s.out ∧
      ¬s.queue.PutRejected 0 1) ∧
    ∃ s, (poolMachine 0 (fun _ => 5) 3).Reach Machine.free s ∧ s.out = [1, 2, 1, 0] := by
  have start : (poolMachine 0 (fun _ => 5) 3).Reach Machine.free
    ({ queue := initializedPool 0 (fun _ => 5) 3 } : PoolRun Nat) := .start rfl
  constructor
  · have seen : ((poolMachine 0 (fun _ => 5) 3).run
        ({ queue := initializedPool 0 (fun _ => 5) 3 } : PoolRun Nat) [.get]).map
          (fun s => (s.out, (s.queue.put 0 1).2)) = some ([0], 0) := by decide +kernel
    obtain ⟨s, run, eq⟩ := Option.map_eq_some_iff.mp seen
    obtain ⟨out, taken⟩ := Prod.mk.inj eq
    refine ⟨s, .of_run start run, by simp [out], fun rejected => ?_⟩
    have := taken.symm.trans rejected.1
    exact absurd this (by decide)
  · have seen : ((poolMachine 0 (fun _ => 5) 3).run
        ({ queue := initializedPool 0 (fun _ => 5) 3 } : PoolRun Nat) putFree).map
          (fun s => s.out) = some [1, 2, 1, 0] := by decide +kernel
    obtain ⟨s, run, out⟩ := Option.map_eq_some_iff.mp seen
    exact ⟨s, .of_run start run, out⟩

end FlatObjectQueue

end Fuxi.Base
