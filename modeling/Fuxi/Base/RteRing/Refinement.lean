import Fuxi.Base.RteRing.ExactlyOnce
import Fuxi.Lib.SharedFifo

/-!
# The concurrent ring refines a bounded queue

A call of `DoEnqueue` reserves room when it moves the head and appends its elements when it stores
the tail. A call of `DoDequeue` removes its elements when it moves the head, though it copies them
later, and gives their room back when it stores the tail. A call is refused when it has read the
tail of the other side. With these moments, every interleaving is a run of a bounded queue.
-/

namespace Fuxi.Base.RteRing

open Lib

variable {α Tid : Type*}

/-- The elements in the slots of the positions `[p, p + n)`. -/
def slice (r : RteRing α) (p n : Nat) : List α :=
  (List.range n).map fun i => r.storage ((p + i) % r.size)

/-- `obj_table`. -/
def Call.items (c : Call α) : List α := (List.range c.n).map c.table

def Call.op (c : Call α) : QueueOp α :=
  match c.side with
  | .prod => .put c.items
  | .cons => .take c.n

/-- Where the call of a thread is, given what there is at the positions. -/
def Pc.stage (items : Nat → Nat → List α) : Pc α → QueueStage α
  | .idle => .idle
  | .loadHead c | .loadTail c _ _ | .moveHead c _ _ _ => .asked c.op
  | .copy k _ | .waitTail k | .storeTail k =>
    match k.call.side with
    | .prod => .putting k.call.items
    | .cons => .taking (items k.oldHead k.call.n)
  | .returned c moved _ =>
    .answered (if moved = 0 then none else some ((List.range moved).map c.table))

/-- The queue, given what there is at the positions. -/
def State.view (s : State Tid α) (items : Nat → Nat → List α) : SharedFifo Tid α where
  items := items s.ring.cons.head (s.ring.prod.tail - s.ring.cons.head)
  reserved := s.ring.prod.head - s.ring.prod.tail
  occupied := s.ring.cons.head - s.ring.cons.tail
  stage t := (s.pc t).stage items

/-- The queue that the ring stands for: its elements lie in the slots between the head of the
consumers and the tail of the producers. -/
def State.queue (s : State Tid α) : SharedFifo Tid α := s.view s.ring.slice

/-- What a step is for the queue. -/
def State.label (s : State Tid α) : Tid × Move α → Option (Tid × QueueMove α)
  | (t, .call c) => some (t, .ask c.op)
  | (t, .step) =>
    match s.pc t with
    | .loadTail c oldHead _ =>
      if c.n > s.ring.entries c.side oldHead ∨ c.n = 0 then some (t, .refuse) else none
    | .moveHead c oldHead _ _ =>
      if c.single ∨ u32 (s.ring.ht c.side).head = u32 oldHead then some (t, .claim) else none
    | .storeTail _ => some (t, .finish)
    | .idle | .loadHead _ | .copy _ _ | .waitTail _ | .returned _ _ _ => none

/-- The tail of the other side is read before it is `2^32` positions above the head that the call
has read, so that the subtraction does not go round. -/
def Prompt (s : State Tid α) (t : Tid) : Prop :=
  ∀ c oldHead seen, s.pc t = .loadTail c oldHead seen →
    s.ring.limit c.side < oldHead + 4294967296

/-- Calls obey the rule of their side, and neither a compare-exchange nor a read of a tail is
late. -/
def prompt (rules : Side → Rule Tid) (s : State Tid α) (m : Tid × Move α) (s' : State Tid α) :
    Prop :=
  disciplined rules s m s' ∧ Prompt s m.1

/-! ## The elements in claim order -/

/-- The elements that have been claimed for the positions `[p, p + n)`. -/
def History.slice (h : History α) (p n : Nat) : List α := (h.enq.drop p).take n

/-- The queue with the elements of the history. -/
def State.book (s : State Tid α) : SharedFifo Tid α := s.view s.hist.slice

namespace Inv

variable {s : State Tid α}

theorem length_enq (h : Inv s) : s.hist.enq.length = s.ring.prod.head :=
  (h.claimed .prod).symm

/-- The published positions that are not freed hold the elements in claim order. -/
theorem slice_eq (h : Inv s) {p n : Nat} (lo : s.ring.cons.tail ≤ p)
    (hi : p + n ≤ s.ring.prod.tail) : s.ring.slice p n = s.hist.slice p n := by
  have published : s.ring.prod.tail ≤ s.ring.prod.head := h.tail_le .prod
  have length := h.length_enq
  refine List.ext_getElem? fun i => ?_
  by_cases hn : i < n
  · have live := h.live (p + i) (Nat.le_add_right_of_le lo) (h.copied_of_lt .prod (p + i) (by
      simp only [ht]; omega))
    rw [History.slice, List.getElem?_take_of_lt hn, List.getElem?_drop, live, slice,
      List.getElem?_map, List.getElem?_range hn]
    rfl
  · rw [List.getElem?_eq_none (by simp [slice]; omega),
      List.getElem?_eq_none (by simp [History.slice]; omega)]

/-- A claim of a consumer lies in the published positions that are not freed. -/
theorem taken_slice (h : Inv s) {t : Tid} {k : Claim α} (hk : (s.pc t).claim? = some k)
    (side : k.call.side = .cons) :
    s.ring.cons.tail ≤ k.oldHead ∧ k.oldHead + k.call.n ≤ s.ring.prod.tail := by
  have ok := h.claimOk hk
  have above := ok.above
  have below := ok.below
  have le : s.ring.cons.head ≤ s.ring.prod.tail := h.head_le .cons
  rw [side] at above below
  simp only [ht] at above below
  rw [ok.head_eq]
  exact ⟨above, below.trans le⟩

theorem queue_eq (h : Inv s) : s.queue = s.book := by
  have le : s.ring.cons.tail ≤ s.ring.cons.head := h.tail_le .cons
  have le' : s.ring.cons.head ≤ s.ring.prod.tail := h.head_le .cons
  have items := h.slice_eq le (show _ + (s.ring.prod.tail - s.ring.cons.head) ≤ _ by omega)
  refine SharedFifo.ext items rfl rfl (funext fun t => ?_)
  have claims : ∀ k, (s.pc t).claim? = some k → k.call.side = .cons →
      s.ring.slice k.oldHead k.call.n = s.hist.slice k.oldHead k.call.n :=
    fun k hk side => h.slice_eq (h.taken_slice hk side).1 (h.taken_slice hk side).2
  simp only [State.queue, State.book, State.view]
  cases hp : s.pc t with
  | copy k done | waitTail k | storeTail k =>
    simp only [Pc.stage]
    cases side : k.call.side with
    | prod => rfl
    | cons => simp only [claims k (by rw [hp]; rfl) side]
  | _ => rfl

end Inv

section Slices

variable (h : History α) (p m n : Nat)

theorem History.slice_drop : (h.slice p m).drop n = h.slice (p + n) (m - n) := by
  rw [slice, slice, List.drop_take, List.drop_drop]

theorem History.slice_take (le : n ≤ m) : (h.slice p m).take n = h.slice p n := by
  rw [slice, slice, List.take_take, Nat.min_eq_left le]

theorem History.slice_append : h.slice p m ++ h.slice (p + m) n = h.slice p (m + n) := by
  rw [slice, slice, slice, List.take_add, List.drop_drop]

@[simp] theorem History.slice_copy (σ : Side) (q : Nat) : (h.copy σ q).slice = h.slice := by
  funext p n
  rw [slice, slice, copy_enq]

@[simp] theorem History.slice_finish (k : Claim α) : (h.finish k).slice = h.slice := by
  funext p n
  rw [slice, slice, finish_enq]

end Slices

/-- A claim leaves what has been claimed before as it is. -/
theorem History.slice_claim (h : History α) (c : Call α) {p n : Nat}
    (old : p + n ≤ h.enq.length) : (h.claim c).slice p n = h.slice p n := by
  cases side : c.side with
  | prod =>
    simp only [slice, claim, side]
    rw [List.drop_append_of_le_length (by omega), List.take_append_of_le_length]
    rw [List.length_drop]
    omega
  | cons => simp only [slice, claim, side]

@[simp] theorem Claim.updateTail_stage (k : Claim α) (items : Nat → Nat → List α) :
    k.updateTail.stage items = (Pc.storeTail k).stage items := by
  unfold updateTail
  split_ifs <;> rfl

/-- Of the table of a claim, only that of a producer matters, and it stays as it is. -/
theorem Claim.copied_stage (k : Claim α) (storage : Nat → α) (e : Nat × Nat)
    (items : Nat → Nat → List α) :
    (Pc.storeTail (k.copied storage e)).stage items = (Pc.storeTail k).stage items := by
  cases side : k.call.side <;> simp [Pc.stage, copied, Call.items, copyOne, side]

variable {s s' : State Tid α} {t : Tid}

namespace Inv

/-- The claims that are not published are part of the history. -/
theorem stage_claim (h : Inv s) (c : Call α) (u : Tid) :
    (s.pc u).stage (s.hist.claim c).slice = (s.pc u).stage s.hist.slice := by
  have claims : ∀ k, (s.pc u).claim? = some k → k.call.side = .cons →
      (s.hist.claim c).slice k.oldHead k.call.n = s.hist.slice k.oldHead k.call.n := by
    intro k hk side
    have published : s.ring.prod.tail ≤ s.ring.prod.head := h.tail_le .prod
    have inside := (h.taken_slice hk side).2
    exact s.hist.slice_claim c (by rw [h.length_enq]; omega)
  cases hp : s.pc u with
  | copy k done | waitTail k | storeTail k =>
    simp only [Pc.stage]
    cases side : k.call.side with
    | prod => rfl
    | cons => simp only [claims k (by rw [hp]; rfl) side]
  | _ => rfl

/-- A head that is moved is the one that the call has read. -/
theorem head_current (h : Inv s) (turn : InTurn s t) (timely : Timely s t) {c : Call α}
    {oldHead entries seen : Nat} (hp : s.pc t = .moveHead c oldHead entries seen)
    (moves : c.single ∨ u32 (s.ring.ht c.side).head = u32 oldHead) :
    oldHead = (s.ring.ht c.side).head := by
  have loc := h.locals t
  rw [hp] at loc
  obtain ⟨old, le, -, -⟩ := loc
  cases single : c.single with
  | true => exact turn.head c oldHead entries seen hp single
  | false =>
    have near := timely c oldHead entries seen hp single
    have same := moves.resolve_left (by simp [single])
    rw [h.claimed] at same le ⊢
    exact eq_of_u32_eq le (by omega) same.symm

/-- What is used of the queue are the positions between the tail of the consumers and the head of
the producers. -/
theorem book_used (h : Inv s) :
    s.book.used = s.ring.prod.head - s.ring.cons.tail ∧
      s.book.items.length = s.ring.prod.tail - s.ring.cons.head := by
  have le₁ : s.ring.cons.tail ≤ s.ring.cons.head := h.tail_le .cons
  have le₂ : s.ring.cons.head ≤ s.ring.prod.tail := h.head_le .cons
  have le₃ : s.ring.prod.tail ≤ s.ring.prod.head := h.tail_le .prod
  have length := h.length_enq
  have items : s.book.items.length = s.ring.prod.tail - s.ring.cons.head := by
    simp only [State.book, State.view, History.slice, List.length_take, List.length_drop]
    omega
  refine ⟨?_, items⟩
  rw [SharedFifo.used, items]
  simp only [State.book, State.view]
  omega

end Inv

section Steps

variable [DecidableEq Tid]

/-- A thread goes on, and the ring and the history keep what the queue consists of. -/
theorem book_update {ring : RteRing α} {hist : History α} {p : Pc α}
    (same : ∀ u, u ≠ t → (s.pc u).stage hist.slice = (s.pc u).stage s.hist.slice) :
    (State.book ⟨ring, Function.update s.pc t p, hist⟩).stage =
      Function.update s.book.stage t (p.stage hist.slice) := by
  funext u
  by_cases e : u = t
  · subst e
    simp [State.book, State.view]
  · simp [State.book, State.view, e, same u e]

theorem book_goto (s : State Tid α) (t : Tid) (p : Pc α) :
    (s.goto t p).book = s.book.goto t (p.stage s.hist.slice) :=
  SharedFifo.ext rfl rfl rfl (book_update fun _ _ => rfl)

/-- A step that the queue does not see. -/
theorem book_goto_same {p : Pc α} (same : p.stage s.hist.slice = (s.pc t).stage s.hist.slice) :
    (s.goto t p).book = s.book := by
  rw [book_goto, same]
  exact s.book.goto_stage t

namespace Inv

/-- Whoever is refused has read that there is no room or that there are too few elements. -/
theorem refines_refuse (h : Inv s) (prompt : Prompt s t) {c : Call α} {oldHead seen : Nat}
    (hp : s.pc t = .loadTail c oldHead seen)
    (none : c.n > s.ring.entries c.side oldHead ∨ c.n = 0) (rest : Nat) :
    s.book.step s.ring.capacity (t, .refuse) = some (s.goto t (.returned c 0 rest)).book := by
  have asked : s.book.stage t = .asked c.op := by simp [State.book, State.view, hp, Pc.stage]
  obtain ⟨used, length⟩ := h.book_used
  have loc := h.locals t
  rw [hp] at loc
  have old := loc.2
  have soon := prompt c oldHead seen hp
  have claims : (s.book.claim s.ring.capacity t c.op).isNone = true := by
    obtain ⟨le₁, le₂, le₃⟩ := h.chain
    have le₄ := h.head_le c.side
    cases side : c.side with
    | prod =>
      rw [side] at none old soon le₄
      simp only [entries, limit, ht] at *
      rw [sub32_eq (by omega) (by omega)] at none
      have n : c.items.length = c.n := by simp [Call.items]
      rw [Call.op, side, SharedFifo.claim, if_pos (by rw [used, n]; omega)]
      rfl
    | cons =>
      rw [side] at none old soon le₄
      simp only [entries, limit, ht] at *
      rw [sub32_eq (by omega) (by omega)] at none
      rw [Call.op, side, SharedFifo.claim, if_pos (by rw [length]; omega)]
      rfl
  rw [book_goto]
  simp only [SharedFifo.step, asked, claims, if_true]
  rfl

/-- Whoever moves the head reserves room or takes elements. -/
theorem refines_claim (h : Inv s) {c : Call α} {oldHead entries seen : Nat}
    (hp : s.pc t = .moveHead c oldHead entries seen)
    (cur : oldHead = (s.ring.ht c.side).head) :
    s.book.step s.ring.capacity (t, .claim) = some (State.book
      { ring := s.ring.setHead c.side (oldHead + c.n)
        pc := Function.update s.pc t (.copy ⟨c, oldHead, entries, s.hist.claimed c.side⟩ 0)
        hist := s.hist.claim c }) := by
  have asked : s.book.stage t = .asked c.op := by simp [State.book, State.view, hp, Pc.stage]
  obtain ⟨used, length⟩ := h.book_used
  obtain ⟨le₁, le₂, le₃⟩ := h.chain
  have loc := h.locals t
  rw [hp] at loc
  obtain ⟨-, -, pos, room⟩ := loc
  have room := room cur
  have enq := h.length_enq
  simp only [SharedFifo.step, asked]
  have stages : (State.book
      { ring := s.ring.setHead c.side (oldHead + c.n)
        pc := Function.update s.pc t (.copy ⟨c, oldHead, entries, s.hist.claimed c.side⟩ 0)
        hist := s.hist.claim c }).stage = Function.update s.book.stage t
          ((Pc.copy ⟨c, oldHead, entries, s.hist.claimed c.side⟩ 0).stage (s.hist.claim c).slice) :=
    book_update fun u _ => h.stage_claim c u
  cases side : c.side with
  | prod =>
    rw [side] at cur room
    simp only [limit, ht] at *
    have n : c.items.length = c.n := by simp [Call.items]
    rw [Call.op, side, SharedFifo.claim, if_neg (by rw [used, n]; omega), Option.some.injEq]
    simp only [side] at stages ⊢
    refine SharedFifo.ext ?_ ?_ rfl (stages.trans ?_).symm
    · exact (s.hist.slice_claim c (by omega)).symm
    · show s.ring.prod.head - s.ring.prod.tail + c.items.length = oldHead + c.n - s.ring.prod.tail
      omega
    · simp only [Pc.stage, side]
      rfl
  | cons =>
    rw [side] at cur room
    simp only [limit, ht] at *
    rw [Call.op, side, SharedFifo.claim, if_neg (by rw [length]; omega), Option.some.injEq]
    simp only [side] at stages ⊢
    refine SharedFifo.ext ?_ rfl ?_ (stages.trans ?_).symm
    · show (s.hist.slice s.ring.cons.head (s.ring.prod.tail - s.ring.cons.head)).drop c.n =
        (s.hist.claim c).slice (oldHead + c.n) (s.ring.prod.tail - (oldHead + c.n))
      rw [s.hist.slice_claim c (by omega), s.hist.slice_drop, ← cur, Nat.sub_sub]
    · show s.ring.cons.head - s.ring.cons.tail + c.n = oldHead + c.n - s.ring.cons.tail
      omega
    · have taken := s.hist.slice_take s.ring.cons.head (s.ring.prod.tail - s.ring.cons.head) c.n
        (by omega)
      simp only [Pc.stage, side]
      rw [s.hist.slice_claim c (by omega), cur, ← taken]
      rfl

/-- Whoever stores the tail appends the elements or gives their room back. -/
theorem refines_finish (h : Inv s) (turn : InTurn s t) {k : Claim α}
    (hp : s.pc t = .storeTail k) :
    s.book.step s.ring.capacity (t, .finish) = some (State.book
      { ring := s.ring.setTail k.call.side (k.oldHead + k.call.n)
        pc := Function.update s.pc t (.returned k.call k.call.n (k.entries - k.call.n))
        hist := s.hist.finish k }) := by
  obtain ⟨le₁, le₂, le₃⟩ := h.chain
  have loc := h.locals t
  rw [hp] at loc
  obtain ⟨ok, filled, multi⟩ := loc
  have first : (s.ring.ht k.call.side).tail = k.oldHead := by
    cases single : k.call.single with
    | true => exact turn.tail k hp single
    | false => exact (multi single).trans ok.head_eq.symm
  -- the table holds the elements of the claim
  have items : k.call.items = s.hist.slice k.oldHead k.call.n := by
    refine List.ext_getElem? fun i => ?_
    by_cases hi : i < k.call.n
    · rw [Call.items, List.getElem?_map, List.getElem?_range hi, History.slice,
        List.getElem?_take_of_lt hi, List.getElem?_drop, ok.head_eq, filled.value i hi fun _ => hi]
      rfl
    · rw [List.getElem?_eq_none (by simp [Call.items]; omega),
        List.getElem?_eq_none (by simp [History.slice]; omega)]
  have answer : (if k.call.n = 0 then none else some k.call.items) = some k.call.items :=
    if_neg ok.pos_n.ne'
  have stages : (State.book
      { ring := s.ring.setTail k.call.side (k.oldHead + k.call.n)
        pc := Function.update s.pc t (.returned k.call k.call.n (k.entries - k.call.n))
        hist := s.hist.finish k }).stage =
      Function.update s.book.stage t (.answered (some k.call.items)) := by
    rw [book_update fun u _ => by rw [History.slice_finish], Pc.stage]
    exact congrArg _ (congrArg _ answer)
  have length : k.call.items.length = k.call.n := by simp [Call.items]
  cases side : k.call.side with
  | prod =>
    have putting : s.book.stage t = .putting k.call.items := by
      simp [State.book, State.view, hp, Pc.stage, side]
    rw [side] at first
    simp only [side, ht] at *
    simp only [SharedFifo.step, putting, Option.some.injEq]
    refine SharedFifo.ext ?_ ?_ rfl stages.symm
    · show s.hist.slice s.ring.cons.head (s.ring.prod.tail - s.ring.cons.head) ++ k.call.items =
        (s.hist.finish k).slice s.ring.cons.head (k.oldHead + k.call.n - s.ring.cons.head)
      have joined := s.hist.slice_append s.ring.cons.head
        (s.ring.prod.tail - s.ring.cons.head) k.call.n
      rw [Nat.add_sub_cancel' le₂, first, ← items] at joined
      rw [History.slice_finish, first, joined]
      congr 1
      omega
    · show s.ring.prod.head - s.ring.prod.tail - k.call.items.length =
        s.ring.prod.head - (k.oldHead + k.call.n)
      omega
  | cons =>
    have taking : s.book.stage t = .taking k.call.items := by
      simp [State.book, State.view, hp, Pc.stage, side, items]
    rw [side] at first
    simp only [side, ht] at *
    simp only [SharedFifo.step, taking, Option.some.injEq]
    refine SharedFifo.ext ?_ rfl ?_ stages.symm
    · show s.hist.slice _ _ = (s.hist.finish k).slice _ _
      rw [History.slice_finish]
      rfl
    · show s.ring.cons.head - s.ring.cons.tail - k.call.items.length =
        s.ring.cons.head - (k.oldHead + k.call.n)
      omega

/-- Every access of a thread is a step of the queue, or the queue does not see it. -/
theorem refines_advance (h : Inv s) (turn : InTurn s t) (timely : Timely s t)
    (prompt : Prompt s t) (hs : s.advance t = some s') :
    (SharedFifo.machine Tid α s.ring.capacity).run s.book (s.label (t, .step)).toList =
      some s'.book := by
  have hidden : ∀ {q : SharedFifo Tid α}, s.label (t, .step) = none → q = s.book →
      (SharedFifo.machine Tid α s.ring.capacity).run s.book (s.label (t, .step)).toList =
        some q := by
    rintro q none rfl
    rw [none]
    rfl
  have seen : ∀ {m : QueueMove α} {q : SharedFifo Tid α}, s.label (t, .step) = some (t, m) →
      s.book.step s.ring.capacity (t, m) = some q →
      (SharedFifo.machine Tid α s.ring.capacity).run s.book (s.label (t, .step)).toList =
        some q := by
    intro m q label step
    rw [label]
    exact Machine.run_one step
  cases hp : s.pc t with
  | idle | returned => simp [State.advance, hp] at hs
  | loadHead c =>
    simp only [State.advance, hp, Option.some.injEq] at hs
    subst hs
    exact hidden (by simp [State.label, hp]) (book_goto_same (by rw [hp]; rfl))
  | loadTail c oldHead seenHead =>
    simp only [State.advance, hp] at hs
    split_ifs at hs with none <;> cases hs
    · exact seen (by simp [State.label, hp, none]) (h.refines_refuse prompt hp none _)
    · exact hidden (by simp [State.label, hp, none]) (book_goto_same (by rw [hp]; rfl))
  | moveHead c oldHead entries seenHead =>
    simp only [State.advance, hp] at hs
    split_ifs at hs with moves <;> cases hs
    · exact seen (by simp [State.label, hp, moves])
        (h.refines_claim hp (h.head_current turn timely hp moves))
    · exact hidden (by simp [State.label, hp, moves]) (book_goto_same (by rw [hp]; rfl))
  | copy k done =>
    refine hidden (by simp [State.label, hp]) ?_
    simp only [State.advance, hp] at hs
    split at hs
    · cases hs
      refine book_goto_same ?_
      rw [hp]
      exact Claim.updateTail_stage ..
    · cases hs
      refine SharedFifo.ext ?_ rfl rfl ?_
      · show (s.hist.copy _ _).slice _ _ = s.hist.slice _ _
        rw [History.slice_copy]
        rfl
      · rw [book_update fun u _ => by rw [History.slice_copy], History.slice_copy]
        refine (congrArg _ ?_).trans (Function.update_eq_self t s.book.stage)
        show _ = (s.pc t).stage s.hist.slice
        rw [hp]
        split_ifs
        · exact Claim.copied_stage ..
        · rw [Claim.updateTail_stage]
          exact Claim.copied_stage ..
  | waitTail k =>
    refine hidden (by simp [State.label, hp]) ?_
    simp only [State.advance, hp] at hs
    split_ifs at hs <;> cases hs
    · exact book_goto_same (by rw [hp])
    · exact book_goto_same (by rw [hp]; rfl)
  | storeTail k =>
    simp only [State.advance, hp, Option.some.injEq] at hs
    subst hs
    exact seen (by simp [State.label, hp]) (h.refines_finish turn hp)

end Inv

/-- A call is a call of the queue. -/
theorem refines_enter {c : Call α} (hs : s.enter t c = some s') :
    s.book.step s.ring.capacity (t, .ask c.op) = some s'.book := by
  have idle := State.enter_idle hs
  cases State.enter_eq hs
  rw [book_goto]
  cases hp : s.pc t with
  | idle | returned =>
    simp only [SharedFifo.step, State.book, State.view, hp, Pc.stage]
  | _ => simp [hp, Pc.call?] at idle

end Steps

/-- Every interleaving in which nobody is late is a run of a bounded queue, with the moments at
which the calls claim, finish or are refused. At its end the queue holds what is in the slots, and
its answers are what the calls have returned. -/
theorem refinesQueue [DecidableEq Tid] (zero : α) (objectNum : Nat) (isSp isSc : Bool)
    (rules : Side → Rule Tid) {s : State Tid α} {is : List (Tid × Move α)}
    (along : (machine zero objectNum isSp isSc).Along (prompt rules)
      (fresh Tid zero objectNum isSp isSc) is)
    (hr : (machine zero objectNum isSp isSc).run (fresh Tid zero objectNum isSp isSc) is = some s) :
    (SharedFifo.machine Tid α (init zero objectNum isSp isSc).capacity).run {}
      ((machine zero objectNum isSp isSc).trace State.label (fresh Tid zero objectNum isSp isSc)
        is) = some s.queue := by
  have start : Inv (fresh Tid zero objectNum isSp isSc) := inv_fresh ..
  have empty : (fresh Tid zero objectNum isSp isSc).queue = {} := start.queue_eq.trans rfl
  rw [← empty]
  let I (s : State Tid α) : Prop := Inv s ∧ Obeyed rules s ∧ Fresh s ∧
    s.ring.capacity = (init zero objectNum isSp isSc).capacity
  have inv : I (fresh Tid zero objectNum isSp isSc) :=
    ⟨start, fun t c hc => by simp [fresh, Pc.call?] at hc,
      fun t c o ho => by simp [fresh, Pc.read?] at ho, rfl⟩
  refine along.refines hr inv ?_
  rintro s ⟨t, m⟩ s' ⟨inv, obeyed, fresh, capacity⟩ hs ⟨⟨calls, timely⟩, prompt⟩
  have turn := fresh.inTurn inv obeyed.alone t
  have inv' := inv.step turn timely hs
  have size : s'.ring.size = s.ring.size := by
    cases m with
    | call c => cases State.enter_eq hs; rfl
    | step => exact State.advance_size hs
  refine ⟨⟨inv', obeyed.step calls hs, fresh.step obeyed.alone hs, ?_⟩, ?_⟩
  · rw [inv'.sized.capacity_eq, size, ← inv.sized.capacity_eq, capacity]
  · rw [inv.queue_eq, inv'.queue_eq, ← capacity]
    cases m with
    | call c => exact Machine.run_one (refines_enter hs)
    | step => exact inv.refines_advance turn timely prompt hs

instance (s : State Tid α) (t : Tid) : Decidable (Prompt s t) :=
  match h : s.pc t with
  | .loadTail c oldHead _ =>
    decidable_of_iff (s.ring.limit c.side < oldHead + 4294967296) (by
      refine ⟨fun hc c' o w hp => ?_, fun ht => ht c oldHead _ h⟩
      cases h.symm.trans hp
      exact hc)
  | .idle | .loadHead _ | .moveHead _ _ _ _ | .copy _ _ | .waitTail _ | .storeTail _
  | .returned _ _ _ => .isTrue fun c o w hp => by cases h.symm.trans hp

instance [DecidableEq Tid] (rules : Side → Rule Tid) (s s' : State Tid α) (m : Tid × Move α) :
    Decidable (prompt rules s m s') :=
  inferInstanceAs (Decidable (disciplined rules s m s' ∧ Prompt s m.1))

/-- Of the two producers that race, the second claims first, and the consumer gets both elements in
this order. -/
theorem refinesQueue_race :
    ∃ s, (machine 0 2 false false).run (fresh Nat 0 2 false false) race = some s ∧
      (SharedFifo.machine Nat Nat (init 0 2 false false).capacity).run {}
        ((machine 0 2 false false).trace State.label (fresh Nat 0 2 false false) race) =
          some s.queue ∧
      s.queue.stage 2 = .answered (some [9, 7]) := by
  have along : (machine 0 2 false false).Along (prompt raceRules)
      (fresh Nat 0 2 false false) race := by decide +kernel
  have seen : ((machine 0 2 false false).run (fresh Nat 0 2 false false) race).map
      (fun s => s.queue.stage 2) = some (.answered (some [9, 7])) := by decide +kernel
  obtain ⟨s, run, answer⟩ := Option.map_eq_some_iff.mp seen
  exact ⟨s, run, refinesQueue 0 2 false false raceRules along run, answer⟩

end Fuxi.Base.RteRing
