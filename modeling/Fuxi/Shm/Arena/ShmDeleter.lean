import Mathlib.Data.Nat.ModEq
import Fuxi.Lib.Machine
import Fuxi.Shm.Topo.ProcessState

/-!
# Reference counts of shared objects

A payload in shared memory belongs to a `ShmObject`, whose `ref_cnt` counts references in
all processes. Pointers to the payload and to the object are `shared_ptr`s with a
`ShmObjectDeleter`, which runs when the last local copy goes away.
-/

namespace Fuxi.Shm.Arena

open Lib Topo

/-- What a `shared_ptr` points to: nothing, a payload, or a `ShmObject`. -/
inductive Ptr
  | null
  | payload (addr : Nat)
  | object (addr : Nat)
  deriving DecidableEq

/-- A `shared_ptr`, all local copies together, with the `segment` (null or not) and the
`object` of its deleter. -/
structure SharedPtr where
  ptr : Ptr
  segment : Bool
  object : Nat
  deriving DecidableEq

/-- One run of a deleter: its object, whether its pointer is the payload that
`MakeSharedAndMove` has handed out, how many references have been counted in the object
until then, whether it was the last reference, and whether `DeleteObject` was called. -/
structure Release where
  object : Nat
  payload : Bool
  counted : Nat
  last : Bool
  deleted : Bool

/-- Objects, their arenas and the pointers to them. `isOwner` is a field of the arena that
has taken an object; `counted` is the number of `fetch_add`s on it. -/
structure Objects where
  taken : Nat → Bool := fun _ => false
  isOwner : Nat → Bool := fun _ => true
  refCnt : RefCounts := fun _ => 0
  dataAddr : Nat → Ptr := fun _ => .null
  live : List SharedPtr := []
  processState : Nat → ProcessState := fun _ => ProcessState.initialized 0 maxReaderEventSize
  counted : Nat → Nat := fun _ => 0
  releases : List Release := []

/-- `ShmObject::MAX_BLOCK_NUM`. -/
def maxBlockNum : Nat := 32

/-- The payload pointer of a `MakeSharedAndMove`. -/
def SharedPtr.isPayload (p : SharedPtr) : Bool :=
  p.segment && match p.ptr with | .payload _ => true | _ => false

namespace Objects

/-- A pointer or an event refers to the object. -/
def referred (live : List SharedPtr) (processState : Nat → ProcessState) (o : Nat) : Bool :=
  live.any (fun p => p.object = o) ||
    (List.range maxProcessNum).any fun i => (processState i).events.contains o

/-- `fetch_add(1)` on the count of an object. -/
def addRef (s : Objects) (o : Nat) : Objects :=
  { s with
    refCnt := s.refCnt.add o
    counted := Function.update s.counted o (s.counted o + 1) }

def addPtr (s : Objects) (p : SharedPtr) : Objects := { s with live := s.live ++ [p] }

/-- `ShmArena::Init` takes an object from the segment, in its initial state. -/
def init (s : Objects) (o : Nat) : Objects :=
  { s with taken := Function.update s.taken o true }

/-- `MakeSharedAndMove`, and `NewObject` once it has allocated the payload; `blocks` is the
size of the block index table. -/
def makeSharedAndMove (s : Objects) (o : Nat) (ptr : Ptr) (blocks : Nat) : Objects :=
  if s.isOwner o = false then s
  else if maxBlockNum < blocks then s
  else
    { s with
      dataAddr := Function.update s.dataAddr o ptr
      live := s.live ++ [⟨ptr, true, o⟩]
      isOwner := if ptr = .null then s.isOwner else Function.update s.isOwner o false }

/-- `MakeShmObject`. -/
def makeShmObject (s : Objects) (p : SharedPtr) : Objects :=
  (s.addRef p.object).addPtr ⟨.object p.object, p.segment, p.object⟩

/-- `ParseFromShmObject` of a pointer to the object `o`. -/
def parseFromShmObject (s : Objects) (o : Nat) : Objects :=
  (s.addRef o).addPtr ⟨s.dataAddr o, false, o⟩

/-- `ShmObjectDeleter::operator()`: the reference counts after it, and whether it has
called `DeleteObject`. -/
def deleter (s : Objects) (p : SharedPtr) : RefCounts × Bool :=
  if p.ptr = .null then (s.refCnt, false)
  else if p.segment = false then (s.refCnt, false)
  else if p.ptr ≠ s.dataAddr p.object then (s.refCnt, false)
  else
    let current := i32 (s.refCnt p.object - 1)
    (Function.update s.refCnt p.object current, current = 0)

/-- The last local copy of a pointer goes away. -/
def release (s : Objects) (p : SharedPtr) : Objects :=
  let (refCnt, deleted) := s.deleter p
  let live := s.live.erase p
  { s with
    refCnt := refCnt
    live := live
    releases := ⟨p.object, p.isPayload, s.counted p.object,
      !referred live s.processState p.object, deleted⟩ :: s.releases }

end Objects

/-! ## Runs -/

/-- The calls. `push` and `pop` are those of the `ProcessState` with index `i`. -/
inductive ObjectOp
  | init (o : Nat)
  | makeSharedAndMove (o : Nat) (payload : Option Nat) (blocks : Nat)
  | makeShmObject (p : SharedPtr)
  | push (p : SharedPtr) (i fuel : Nat)
  | pop (i : Nat)
  | parseFromShmObject (p : SharedPtr)
  | release (p : SharedPtr)

/-- One call that returns. The pointers that are passed are live, and `Push` and
`ParseFromShmObject` get pointers to a `ShmObject`. -/
def Objects.step (s : Objects) : ObjectOp → Option Objects
  | .init o => if s.taken o then none else some (s.init o)
  | .makeSharedAndMove o payload blocks =>
    if s.taken o then
      some (s.makeSharedAndMove o (payload.elim .null .payload) blocks)
    else none
  | .makeShmObject p => if p ∈ s.live then some (s.makeShmObject p) else none
  | .push p i fuel =>
    if p ∈ s.live ∧ i < maxProcessNum then
      match p.ptr with
      | .object o =>
        ((s.processState i).push s.refCnt o fuel).map fun r =>
          { s.addRef o with
            processState := Function.update s.processState i r.1
            refCnt := r.2 }
      | _ => none
    else none
  | .pop i =>
    if i < maxProcessNum then
      (s.processState i).pop.map fun r =>
        { s.addPtr ⟨.object r.2, false, r.2⟩ with
          processState := Function.update s.processState i r.1 }
    else none
  | .parseFromShmObject p =>
    if p ∈ s.live then
      match p.ptr with
      | .object o => some (s.parseFromShmObject o)
      | _ => none
    else none
  | .release p => if p ∈ s.live then some (s.release p) else none

/-- Objects that nobody has taken yet. -/
def objectMachine : Machine Objects ObjectOp where
  start s := s = {}
  step := Objects.step

/-! ## When the deleter is right -/

/-- The condition on a release: the payload pointer is the last reference if and only if
exactly one reference has been counted (modulo the width of the count), and any other
pointer is not the last reference. -/
def Release.Meets (r : Release) : Prop :=
  if r.payload then u32 r.counted = 1 ↔ r.last = true else r.last = false

instance (r : Release) : Decidable r.Meets := inferInstanceAs (Decidable (ite _ _ _))

/-- How many payload pointers of an object are live. -/
def payloads (live : List SharedPtr) (o : Nat) : Nat :=
  live.countP fun p => p.object = o ∧ p.isPayload

/-- How many payload pointers of an object have been released. -/
def paid (releases : List Release) (o : Nat) : Nat :=
  releases.countP fun r => r.object = o ∧ r.payload

/-- How often `DeleteObject` has been called for an object. -/
def deletes (releases : List Release) (o : Nat) : Nat :=
  releases.countP fun r => r.object = o ∧ r.deleted

/-- The invariant: an object has one payload pointer in its life, the deleter of this
pointer alone counts down, and it does so once. -/
structure Counted (s : Objects) : Prop where
  count : ∀ o, s.refCnt o = i32 (s.counted o - paid s.releases o)
  owner : ∀ o, s.isOwner o = true → payloads s.live o = 0 ∧ paid s.releases o = 0
  once : ∀ o, payloads s.live o + paid s.releases o ≤ 1
  data : ∀ p ∈ s.live, p.isPayload = true → p.ptr = s.dataAddr p.object
  noObject : ∀ o a, s.dataAddr o ≠ .object a
  exact : ∀ r ∈ s.releases, r.deleted = true ↔ r.payload = true ∧ u32 r.counted = 1

theorem payloads_append (live : List SharedPtr) (p : SharedPtr) (o : Nat) :
    payloads (live ++ [p]) o = payloads live o + if p.object = o ∧ p.isPayload then 1 else 0 := by
  simp [payloads, List.countP_append, List.countP_singleton]

theorem payloads_erase {live : List SharedPtr} {p : SharedPtr} (h : p ∈ live) (o : Nat) :
    payloads live o = payloads (live.erase p) o + if p.object = o ∧ p.isPayload then 1 else 0 := by
  rw [payloads, (List.perm_cons_erase h).countP_eq, List.countP_cons]
  simp [payloads]

theorem paid_cons (r : Release) (rs : List Release) (o : Nat) :
    paid (r :: rs) o = paid rs o + if r.object = o ∧ r.payload then 1 else 0 := by
  simp [paid, List.countP_cons]

namespace Counted

variable {s : Objects}

theorem start : Counted {} where
  count := fun _ => by simp [paid, i32]
  owner := fun _ _ => ⟨List.countP_nil, List.countP_nil⟩
  once := fun _ => by simp [payloads, paid]
  data := fun _ hp => absurd hp List.not_mem_nil
  noObject := fun _ _ => Ptr.noConfusion
  exact := fun _ hr => absurd hr List.not_mem_nil

/-- A reference is counted. -/
theorem addRef (h : Counted s) (o : Nat) : Counted (s.addRef o) := by
  refine ⟨fun o' => ?_, h.owner, h.once, h.data, h.noObject, h.exact⟩
  have old := h.count o'
  by_cases e : o' = o
  · subst e
    simp only [Objects.addRef, RefCounts.add, Function.update_self, old]
    unfold i32; push_cast; omega
  · simpa [Objects.addRef, RefCounts.add, e] using old

/-- A pointer appears that is no payload pointer. -/
theorem addPtr (h : Counted s) {p : SharedPtr} (other : p.isPayload = false) :
    Counted (s.addPtr p) := by
  have same : ∀ o, payloads (s.live ++ [p]) o = payloads s.live o := fun o => by
    rw [payloads_append, other]; simp
  refine ⟨h.count, ?_, ?_, fun q hq pay => ?_, h.noObject, h.exact⟩
  · simpa only [Objects.addPtr, same] using h.owner
  · simpa only [Objects.addPtr, same] using h.once
  · rcases List.mem_append.mp hq with old | new
    · exact h.data q old pay
    · rw [List.mem_singleton.mp new, other] at pay; cases pay

/-- The queues change. -/
theorem requeue (h : Counted s) (f : Nat → ProcessState) : Counted { s with processState := f } :=
  ⟨h.count, h.owner, h.once, h.data, h.noObject, h.exact⟩

theorem makeSharedAndMove (h : Counted s) (o : Nat) {ptr : Ptr} (noObject : ∀ a, ptr ≠ .object a)
    (blocks : Nat) : Counted (s.makeSharedAndMove o ptr blocks) := by
  have data' : ∀ o' a, Function.update s.dataAddr o ptr o' ≠ .object a := by
    intro o' a
    by_cases e : o' = o
    · subst e; simpa using noObject a
    · simpa [e] using h.noObject o' a
  -- while the arena owns the object, no payload pointer is live
  have apart : s.isOwner o = true → ∀ q ∈ s.live, q.isPayload = true → q.object ≠ o := by
    intro owner q hq pay e
    have := (h.owner o owner).1
    have pos : 0 < payloads s.live o := List.countP_pos_iff.mpr ⟨q, hq, by simp [e, pay]⟩
    omega
  unfold Objects.makeSharedAndMove
  split_ifs with moved full none
  · exact h
  · exact h
  · have owner : s.isOwner o = true := Bool.not_eq_false _ ▸ moved
    have other : (⟨ptr, true, o⟩ : SharedPtr).isPayload = false := by
      simp [SharedPtr.isPayload, none]
    obtain ⟨count, own, once, data, -, exact⟩ := h.addPtr other
    refine ⟨count, own, once, fun q hq pay => ?_, data', exact⟩
    rcases List.mem_append.mp hq with old | new
    · simp only [Function.update_of_ne (apart owner q old pay)]
      exact h.data q old pay
    · rw [List.mem_singleton.mp new, other] at pay; cases pay
  · have owner : s.isOwner o = true := Bool.not_eq_false _ ▸ moved
    obtain ⟨live, paid'⟩ := h.owner o owner
    refine ⟨h.count, fun o' own => ?_, fun o' => ?_, fun q hq pay => ?_, data', h.exact⟩
    · have ne : o' ≠ o := by rintro rfl; simp at own
      simp only [Function.update_of_ne ne] at own
      simp only
      rw [payloads_append, if_neg fun e => ne e.1.symm]
      exact h.owner o' own
    · simp only
      rw [payloads_append]
      by_cases e : o = o'
      · subst e
        simp only [live, paid']
        split_ifs <;> omega
      · rw [if_neg fun h => e h.1]
        exact h.once o'
    · rcases List.mem_append.mp hq with old | new
      · simp only [Function.update_of_ne (apart owner q old pay)]
        exact h.data q old pay
      · rw [List.mem_singleton.mp new]; simp

/-- The deleter counts down for the payload pointer and for no other. -/
theorem deleter_eq (h : Counted s) {p : SharedPtr} (hp : p ∈ s.live) : s.deleter p =
    if p.isPayload then (Function.update s.refCnt p.object (i32 (s.refCnt p.object - 1)),
      decide (i32 (s.refCnt p.object - 1) = 0))
    else (s.refCnt, false) := by
  have data := h.data p hp
  have noObject := h.noObject p.object
  obtain ⟨ptr, segment, o⟩ := p
  cases segment <;> cases ptr
  case true.payload a => simp [Objects.deleter, SharedPtr.isPayload, ← data rfl]
  case true.object a => simp [Objects.deleter, SharedPtr.isPayload, (noObject a).symm]
  all_goals simp [Objects.deleter, SharedPtr.isPayload]

/-- The last local copy of a pointer goes away. -/
theorem release (h : Counted s) {p : SharedPtr} (hp : p ∈ s.live) : Counted (s.release p) := by
  have erase := payloads_erase hp
  have count := h.count p.object
  have once := h.once p.object
  unfold Objects.release
  rw [h.deleter_eq hp]
  refine ⟨fun o => ?_, fun o own => ?_, fun o => ?_, fun q hq => h.data q (List.mem_of_mem_erase hq),
    h.noObject, fun r hr => ?_⟩ <;> simp only at *
  · rw [paid_cons]
    have old := h.count o
    by_cases e : p.object = o
    · subst e
      by_cases pay : p.isPayload
      · simp only [pay, if_true, Function.update_self, and_self, old]
        unfold i32; push_cast; omega
      · simpa [pay] using old
    · have ne : o ≠ p.object := fun h => e h.symm
      by_cases pay : p.isPayload <;> simpa [pay, e, ne] using old
  · rw [paid_cons]
    have none := h.owner o own
    have := erase o
    split_ifs at this ⊢ with pay <;> omega
  · rw [paid_cons]
    have := h.once o
    have := erase o
    simp only at this ⊢
    omega
  · rcases List.mem_cons.mp hr with rfl | old
    · by_cases pay : p.isPayload
      · have := erase p.object
        rw [if_pos ⟨rfl, pay⟩] at this
        simp only [pay, if_true, decide_eq_true_eq, true_and, count]
        unfold i32 u32; omega
      · simp [pay]
    · exact h.exact r old

theorem step (h : Counted s) {op : ObjectOp} {s' : Objects} (hs : s.step op = some s') :
    Counted s' := by
  cases op with
  | init o =>
    simp only [Objects.step] at hs
    split_ifs at hs
    cases hs
    exact ⟨h.count, h.owner, h.once, h.data, h.noObject, h.exact⟩
  | makeSharedAndMove o payload blocks =>
    simp only [Objects.step] at hs
    split_ifs at hs
    cases hs
    refine h.makeSharedAndMove o (fun a => ?_) blocks
    cases payload <;> simp
  | makeShmObject p =>
    simp only [Objects.step] at hs
    split_ifs at hs
    cases hs
    exact (h.addRef p.object).addPtr (by simp [SharedPtr.isPayload])
  | push p i fuel =>
    simp only [Objects.step] at hs
    split_ifs at hs
    cases hptr : p.ptr with
    | null => simp [hptr] at hs
    | payload a => simp [hptr] at hs
    | object o =>
      simp only [hptr] at hs
      obtain ⟨r, hr, rfl⟩ := Option.map_eq_some_iff.mp hs
      obtain ⟨q, -, rfl⟩ := Option.map_eq_some_iff.mp hr
      exact (h.addRef o).requeue _
  | pop i =>
    simp only [Objects.step] at hs
    split_ifs at hs
    obtain ⟨r, -, rfl⟩ := Option.map_eq_some_iff.mp hs
    exact (h.addPtr (p := ⟨.object r.2, false, r.2⟩) rfl).requeue _
  | parseFromShmObject p =>
    simp only [Objects.step] at hs
    split_ifs at hs
    cases hptr : p.ptr with
    | null => simp [hptr] at hs
    | payload a => simp [hptr] at hs
    | object o =>
      simp only [hptr] at hs
      cases hs
      exact (h.addRef o).addPtr rfl
  | release p =>
    simp only [Objects.step] at hs
    split_ifs at hs with live
    cases hs
    exact h.release live

theorem deletes_le (h : Counted s) (o : Nat) : deletes s.releases o ≤ 1 := by
  have le : deletes s.releases o ≤ paid s.releases o := by
    refine List.countP_mono_left fun r hr del => ?_
    simp only [decide_eq_true_eq] at del ⊢
    exact ⟨del.1, ((h.exact r hr).mp del.2).1⟩
  have := h.once o
  omega

end Counted

/-- In every run a release calls `DeleteObject` exactly when it ends the last reference if
and only if it meets the condition, and no object is deleted twice. -/
theorem deleted_iff_last {s : Objects} (h : objectMachine.Reach Machine.free s) :
    (∀ r ∈ s.releases, (r.deleted = true ↔ r.last = true) ↔ r.Meets) ∧
      ∀ o, deletes s.releases o ≤ 1 := by
  have counted : Counted s := by
    refine h.inv (P := Counted) ?_ fun s op s' ih hs _ => ih.step hs
    rintro s rfl
    exact Counted.start
  refine ⟨fun r hr => ?_, counted.deletes_le⟩
  rw [counted.exact r hr, Release.Meets]
  by_cases pay : r.payload <;> simp [pay]

/-- One `MakeShmObject`, whose pointer goes away before that to the payload. -/
def countedOnce : List ObjectOp :=
  [.init 1, .makeSharedAndMove 1 (some 5) 0, .makeShmObject ⟨.payload 5, true, 1⟩,
    .release ⟨.object 1, true, 1⟩, .release ⟨.payload 5, true, 1⟩]

/-- The two releases meet the condition, and the second one deletes the object. -/
theorem deleted_iff_last_countedOnce : ∃ s, objectMachine.run {} countedOnce = some s ∧
    deletes s.releases 1 = 1 ∧ ∀ r ∈ s.releases, r.deleted = true ↔ r.last = true := by
  have seen : (objectMachine.run {} countedOnce).any (fun s =>
      decide (deletes s.releases 1 = 1 ∧ ∀ r ∈ s.releases, r.Meets)) = true := by decide +kernel
  obtain ⟨s, run, seen⟩ := (Option.any_eq_true ..).mp seen
  obtain ⟨once, meets⟩ := of_decide_eq_true seen
  obtain ⟨exact, -⟩ := deleted_iff_last (Machine.Reach.of_run (.start rfl) run)
  exact ⟨s, run, once, fun r hr => (exact r hr).mpr (meets r hr)⟩

/-- When the only pointer to a new payload goes away, the object is not deleted. -/
theorem release_leaks : ∃ s, objectMachine.Reach Machine.free s ∧
    ∃ r ∈ s.releases, r.object = 1 ∧ r.last = true ∧ r.deleted = false := by
  have seen : (objectMachine.run {} [.init 1, .makeSharedAndMove 1 (some 5) 0,
      .release ⟨.payload 5, true, 1⟩]).any (fun s => decide
        (∃ r ∈ s.releases, r.object = 1 ∧ r.last = true ∧ r.deleted = false)) = true := by
    decide +kernel
  obtain ⟨s, run, seen⟩ := (Option.any_eq_true ..).mp seen
  exact ⟨s, Machine.Reach.of_run (.start rfl) run, of_decide_eq_true seen⟩

end Fuxi.Shm.Arena
