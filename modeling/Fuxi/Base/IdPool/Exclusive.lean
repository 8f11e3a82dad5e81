import Fuxi.Base.IdPool

/-!
# Every id of a pool sits in one place

An id is held by a caller, free in the ring, or on its way: claimed by a call that
takes it, or carried by a call that has not claimed a position for it yet. The
invariant `Pooled` says that every id has one such place.
-/

namespace Fuxi.Base.IdPool

open Lib RteRing

variable {Tid α : Type*}

/-- The places of ids; `free` counts positions in claim order. -/
inductive Place (Tid : Type*)
  | held (t : Tid)
  | free (p : Nat)
  | taking (t : Tid)
  | giving (t : Tid)

/-- The id `x` sits in a place. -/
def State.At (s : State Tid α) : Place Tid → α → Prop
  | .held t, x => x ∈ s.held t
  | .free p, x => s.ring.hist.taken ≤ p ∧ s.ring.hist.enq[p]? = some x
  | .taking t, x => ∃ k, (s.ring.pc t).claim? = some k ∧ k.call.side = .cons ∧
      s.ring.hist.enq[k.pos]? = some x
  | .giving t, x => ∃ c, (s.ring.pc t).call? = some c ∧ (s.ring.pc t).claim? = none ∧
      c.side = .prod ∧ c.table 0 = x

/-- The plain stores of thread `t` are made where the multi path would make them: the
head has not moved since the thread has read it, and the claims before have been
published when it stores the tail. -/
structure InOrder (s : RteRing.State Tid α) (t : Tid) : Prop where
  head : ∀ c o, (s.pc t).read? = some (c, o) → o = (s.ring.ht c.side).head
  tail : ∀ k, s.pc t = .storeTail k → (s.ring.ht k.call.side).tail = k.oldHead

instance (s : RteRing.State Tid α) (t : Tid) : Decidable (InOrder s t) :=
  match h : s.pc t with
  | .loadTail c o _ | .moveHead c o _ _ =>
    decidable_of_iff (o = (s.ring.ht c.side).head)
      ⟨fun cur => ⟨fun d p hp => (by rw [h] at hp; cases hp; exact cur),
        fun k hk => (by rw [h] at hk; cases hk)⟩, fun i => i.head c o (by rw [h]; rfl)⟩
  | .storeTail k =>
    decidable_of_iff ((s.ring.ht k.call.side).tail = k.oldHead)
      ⟨fun turn => ⟨fun d p hp => (by rw [h] at hp; cases hp),
        fun l hl => (by rw [h] at hl; cases hl; exact turn)⟩, fun i => i.tail k h⟩
  | .idle | .loadHead _ | .copy _ _ | .waitTail _ | .returned _ _ _ =>
    .isTrue ⟨fun d p hp => (by rw [h] at hp; cases hp), fun k hk => (by rw [h] at hk; cases hk)⟩

theorem InOrder.inTurn {s : RteRing.State Tid α} {t : Tid} (h : InOrder s t) : InTurn s t :=
  ⟨fun c o _ _ hp _ => h.head c o (by rw [hp]; rfl), fun k hp _ => h.tail k hp⟩

/-- The invariant of a pool of the ids `ids`. -/
structure Pooled (ids : List α) (s : State Tid α) : Prop where
  ring : RteRing.Inv s.ring
  calls : ∀ t c, (s.ring.pc t).call? = some c → c.single = true ∧ c.n = 1
  fits : ids.length ≤ s.ring.ring.size
  nodup : ∀ t, (s.held t).Nodup
  owned : Owned ids s.At

/-- What callers see: no id has two holders, and every id is held, waits in the ring for
a `DoDequeue`, or is carried by a call that puts it back. -/
structure Exclusive (ids : List α) (s : State Tid α) : Prop where
  nodup : ∀ t, (s.held t).Nodup
  oneHolder : ∀ t u x, x ∈ s.held t → x ∈ s.held u → t = u
  known : ∀ t x, x ∈ s.held t → x ∈ ids
  notLost : ∀ x ∈ ids, (∃ t, x ∈ s.held t) ∨
    (∃ p, s.ring.ring.cons.tail ≤ p ∧ p < s.ring.ring.prod.tail ∧ s.ring.hist.enq[p]? = some x) ∨
    ∃ t c, (s.ring.pc t).call? = some c ∧ c.side = .prod ∧ c.table 0 = x

namespace Pooled

variable {ids : List α} {s : State Tid α}

theorem exclusive (h : Pooled ids s) : Exclusive ids s := by
  refine ⟨h.nodup, ?_, fun t x hx => (h.owned.cover x).mpr ⟨.held t, hx⟩, ?_⟩
  · intro t u x ht hu
    have := h.owned.unique (π := .held t) (ρ := .held u) ht hu
    cases this
    rfl
  · intro x hx
    obtain ⟨c1, c2, c3⟩ := h.ring.chain
    have taken := h.ring.claimed .cons
    have enq := h.ring.claimed .prod
    obtain ⟨π, at'⟩ := (h.owned.cover x).mp hx
    cases π with
    | held t => exact Or.inl ⟨t, at'⟩
    | giving t =>
      obtain ⟨c, hc, -, side, hx⟩ := at'
      exact Or.inr (Or.inr ⟨t, c, hc, side, hx⟩)
    | taking t =>
      obtain ⟨k, hk, side, hx⟩ := at'
      have ok := h.ring.claimOk hk
      have above := ok.above
      have below := ok.below
      have pos := ok.pos_n
      rw [side] at above below
      exact Or.inr (Or.inl ⟨k.pos, above, by simp only [ht] at *; omega, hx⟩)
    | free p =>
      obtain ⟨hp, hx⟩ := at'
      obtain ⟨lt, -⟩ := List.getElem?_eq_some_iff.mp hx
      simp only [History.claimed] at taken enq
      by_cases published : p < (s.ring.ring.ht .prod).tail
      · exact Or.inr (Or.inl ⟨p, by simp only [ht] at *; omega, published, hx⟩)
      · obtain ⟨t, k, hk, side, holds⟩ := h.ring.cover .prod p (not_lt.mp published) (by omega)
        have one := (h.calls t _ (Pc.call?_of_claim? hk)).2
        obtain ⟨lo, hi⟩ := holds
        have hpos : p = k.pos := by omega
        have value := h.ring.value hk side (i := 0) (by omega)
        rw [Nat.add_zero, ← hpos, hx, Option.some.injEq] at value
        exact Or.inr (Or.inr ⟨t, k.call, Pc.call?_of_claim? hk, side, value.symm⟩)

/-- A ring never has fewer free slots than ids on their way back. -/
theorem room (h : Pooled ids s) {t : Tid} {c : Call α} (hc : (s.ring.pc t).call? = some c)
    (hk : (s.ring.pc t).claim? = none) (side : c.side = .prod) :
    (s.ring.ring.ht .prod).head < s.ring.ring.limit .prod := by
  obtain ⟨c1, c2, c3⟩ := h.ring.chain
  have taken := h.ring.claimed .cons
  have enq := h.ring.claimed .prod
  simp only [History.claimed] at taken enq
  have place : ∀ i, ∃ π : Place Tid, (∀ x, (s.ring.hist.enq.drop (s.ring.ring.ht .cons).tail)[i]? =
      some x → s.At π x) ∧ (i < s.ring.hist.enq.length - (s.ring.ring.ht .cons).tail →
        π = .free ((s.ring.ring.ht .cons).tail + i) ∨ ∃ u k, π = .taking u ∧
          (s.ring.pc u).claim? = some k ∧ k.pos = (s.ring.ring.ht .cons).tail + i) := by
    intro i
    by_cases free : s.ring.hist.taken ≤ (s.ring.ring.ht .cons).tail + i
    · refine ⟨.free ((s.ring.ring.ht .cons).tail + i), fun x hx => ⟨free, ?_⟩, fun _ => Or.inl rfl⟩
      rwa [List.getElem?_drop] at hx
    · obtain ⟨u, k, hu, kside, holds⟩ :=
        h.ring.cover .cons ((s.ring.ring.ht .cons).tail + i) (by omega) (by omega)
      have one := (h.calls u _ (Pc.call?_of_claim? hu)).2
      obtain ⟨lo, hi⟩ := holds
      have kpos : k.pos = (s.ring.ring.ht .cons).tail + i := by omega
      refine ⟨.taking u, fun x hx => ⟨k, hu, kside, ?_⟩, fun _ => Or.inr ⟨u, k, rfl, hu, kpos⟩⟩
      rwa [List.getElem?_drop, ← kpos] at hx
  choose place sits shape using place
  have count := h.owned.length_le
    (l := c.table 0 :: s.ring.hist.enq.drop (s.ring.ring.ht .cons).tail)
    (fun i => Nat.casesOn i (.giving t) place) ?_ ?_
  · have fits := h.fits
    have cap := h.ring.sized.capacity_eq
    rw [List.length_cons, List.length_drop] at count
    simp only [limit]
    omega
  · intro i x hx
    cases i with
    | zero => exact ⟨c, hc, hk, side, by simpa using hx⟩
    | succ i => exact sits i x (by simpa using hx)
  · have giving : ∀ i, i < s.ring.hist.enq.length - (s.ring.ring.ht .cons).tail →
        place i ≠ .giving t := by
      intro i hi eq
      rcases shape i hi with e | ⟨u, k, e, -, -⟩ <;> rw [eq] at e <;> cases e
    intro i j hi hj eq
    rw [List.length_cons, List.length_drop] at hi hj
    cases i with
    | zero =>
      cases j with
      | zero => rfl
      | succ j => exact (giving j (by omega) eq.symm).elim
    | succ i =>
      cases j with
      | zero => exact (giving i (by omega) eq).elim
      | succ j =>
        change place i = place j at eq
        obtain ei | ⟨u, k, ei, hu, hk⟩ := shape i (by omega)
        · obtain ej | ⟨v, l, ej, -, -⟩ := shape j (by omega)
          · rw [ei, ej, Place.free.injEq] at eq
            omega
          · rw [ei, ej] at eq; cases eq
        · obtain ej | ⟨v, l, ej, hv, hl⟩ := shape j (by omega)
          · rw [ei, ej] at eq; cases eq
          · rw [ei, ej, Place.taking.injEq] at eq
            subst eq
            cases hu.symm.trans hv
            omega

/-! ## One step -/

variable [DecidableEq Tid]

/-- A step of thread `t` that leaves the ids where they are. -/
theorem at_congr (s s' : State Tid α) (t : Tid) (held : s'.held = s.held)
    (taken : s'.ring.hist.taken = s.ring.hist.taken) (enq : s'.ring.hist.enq = s.ring.hist.enq)
    (pc : ∀ u, u ≠ t → s'.ring.pc u = s.ring.pc u)
    (taking : ∀ x, s'.At (.taking t) x ↔ s.At (.taking t) x)
    (giving : ∀ x, s'.At (.giving t) x ↔ s.At (.giving t) x) (π : Place Tid) (x : α) :
    s'.At π x ↔ s.At π x := by
  cases π with
  | held u => simp only [State.At, held]
  | free p => simp only [State.At, taken, enq]
  | taking u =>
    by_cases hu : u = t
    · subst hu; exact taking x
    · simp only [State.At, pc u hu, enq]
  | giving u =>
    by_cases hu : u = t
    · subst hu; exact giving x
    · simp only [State.At, pc u hu]

/-- A thread that only changes what it knows about its call. -/
theorem at_goto {s : State Tid α} {t : Tid} {p : Pc α}
    (claim : p.claim? = (s.ring.pc t).claim?)
    (call : ∀ c, c.side = .prod → (p.call? = some c ↔ (s.ring.pc t).call? = some c))
    (π : Place Tid) (x : α) : (State.mk (s.ring.goto t p) s.held).At π x ↔ s.At π x := by
  refine at_congr s ⟨s.ring.goto t p, s.held⟩ t rfl rfl rfl
    (fun u hu => by simp [RteRing.State.goto, hu]) ?_ ?_ π x
  · intro x
    simp only [State.At, RteRing.State.goto, Function.update_self, claim]
  · intro x
    simp only [State.At, RteRing.State.goto, Function.update_self, claim]
    refine exists_congr fun c => ⟨?_, ?_⟩
    · rintro ⟨h1, h2, h3, h4⟩
      exact ⟨(call c h3).mp h1, h2, h3, h4⟩
    · rintro ⟨h1, h2, h3, h4⟩
      exact ⟨(call c h3).mpr h1, h2, h3, h4⟩

/-- A caller starts to take an id. -/
theorem take (h : Pooled ids s) {t : Tid} {blank : α} {r : RteRing.State Tid α}
    (hr : s.ring.enter t (takeCall blank) = some r) : Owned ids (State.mk r s.held).At := by
  have idle := RteRing.State.enter_idle hr
  rw [RteRing.State.enter_eq hr]
  refine h.owned.congr (at_goto ?_ fun c side => ?_)
  · rw [Pc.claim?_of_call? idle]; rfl
  · rw [idle]
    refine ⟨fun hc => ?_, fun hc => by cases hc⟩
    cases hc
    cases side

/-- A caller starts to give an id back. -/
theorem give [DecidableEq α] (h : Pooled ids s) {t : Tid} {id : α} {r : RteRing.State Tid α}
    (has : id ∈ s.held t)
    (hr : s.ring.enter t (giveCall id) = some r) :
    Owned ids (State.mk r (Function.update s.held t ((s.held t).erase id))).At := by
  have idle := RteRing.State.enter_idle hr
  have noClaim := Pc.claim?_of_call? idle
  rw [RteRing.State.enter_eq hr]
  refine h.owned.move (a := .held t) (b := .giving t) (z := id) has fun π x => ?_
  cases π with
  | held u =>
    by_cases hu : u = t
    · subst hu
      simp [State.At, (h.nodup u).mem_erase_iff, and_comm]
    · simp [State.At, hu]
  | free p => simp [State.At, RteRing.State.goto]
  | taking u =>
    by_cases hu : u = t
    · subst hu
      simp only [State.At, RteRing.State.goto, Function.update_self, noClaim]
      simp [Pc.claim?]
    · simp [State.At, RteRing.State.goto, hu]
  | giving u =>
    by_cases hu : u = t
    · subst hu
      simp only [State.At, RteRing.State.goto, Function.update_self, idle, noClaim]
      simp [giveCall, Pc.call?, Pc.claim?, eq_comm]
    · simp [State.At, RteRing.State.goto, hu]

/-- A call that gives an id back claims a position for it. -/
theorem claimGive (h : Pooled ids s) {t : Tid} {c : Call α} {k : Claim α} {d : Nat}
    (hc : (s.ring.pc t).call? = some c) (hk : (s.ring.pc t).claim? = none) (side : c.side = .prod)
    (kside : k.call.side = .prod) {r : RteRing α} :
    Owned ids (State.mk ⟨r, Function.update s.ring.pc t (.copy k d), s.ring.hist.claim c⟩
      s.held).At := by
  have one := (h.calls t c hc).2
  have enq : (s.ring.hist.claim c).enq = s.ring.hist.enq ++ [c.table 0] := by
    simp [History.claim, side, one]
  have taken : (s.ring.hist.claim c).taken = s.ring.hist.taken := by simp [History.claim, side]
  have claimed : s.ring.hist.taken ≤ s.ring.hist.enq.length := by
    have h1 := h.ring.claimed .cons
    have h2 := h.ring.claimed .prod
    obtain ⟨c1, c2, c3⟩ := h.ring.chain
    simp only [History.claimed] at h1 h2
    omega
  refine h.owned.move (a := .giving t) (b := .free s.ring.hist.enq.length) (z := c.table 0)
    ⟨c, hc, hk, side, rfl⟩ fun π x => ?_
  cases π with
  | held u => simp [State.At]
  | free p =>
    simp only [State.At, enq, taken, List.getElem?_append, reduceCtorEq, false_and,
      not_false_eq_true, and_true, Place.free.injEq]
    split_ifs with old
    · simp [Nat.ne_of_lt old]
    · rw [List.getElem?_eq_none (not_lt.mp old)]
      by_cases new : p = s.ring.hist.enq.length
      · simp [new, claimed, eq_comm]
      · simp [new, show p - s.ring.hist.enq.length ≠ 0 by omega]
  | taking u =>
    by_cases hu : u = t
    · subst hu
      simp only [State.At, Function.update_self, hk]
      simp [Pc.claim?, kside]
    · have old : ∀ l, (s.ring.pc u).claim? = some l → l.call.side = .cons →
          l.pos < s.ring.hist.enq.length := by
        intro l hl lside
        have ok := h.ring.claimOk hl
        have below := ok.below
        have pos := ok.pos_n
        obtain ⟨c1, c2, c3⟩ := h.ring.chain
        have h2 := h.ring.claimed .prod
        simp only [History.claimed] at h2
        rw [lside] at below
        omega
      simp only [State.At, enq, Function.update_of_ne hu, reduceCtorEq, false_and,
        not_false_eq_true, and_true, or_false]
      refine exists_congr fun l => ?_
      refine and_congr_right fun hl => and_congr_right fun lside => ?_
      rw [List.getElem?_append_left (old l hl lside)]
  | giving u =>
    by_cases hu : u = t
    · subst hu
      simp only [State.At, Function.update_self, hc, hk]
      simp [Pc.claim?, side, eq_comm]
    · simp [State.At, hu]

/-- A call that takes an id claims the oldest free one. -/
theorem claimTake (h : Pooled ids s) {t : Tid} {c : Call α} {k : Claim α} {d : Nat}
    (hc : (s.ring.pc t).call? = some c) (hk : (s.ring.pc t).claim? = none) (side : c.side = .cons)
    (kside : k.call.side = .cons) (kpos : k.pos = s.ring.hist.taken)
    (room : s.ring.hist.taken < s.ring.hist.enq.length) {r : RteRing α} :
    Owned ids (State.mk ⟨r, Function.update s.ring.pc t (.copy k d), s.ring.hist.claim c⟩
      s.held).At := by
  have one := (h.calls t c hc).2
  have enq : (s.ring.hist.claim c).enq = s.ring.hist.enq := by simp [History.claim, side]
  have taken : (s.ring.hist.claim c).taken = s.ring.hist.taken + 1 := by
    simp [History.claim, side, one]
  have first := List.getElem?_eq_getElem room
  refine h.owned.move (a := .free s.ring.hist.taken) (b := .taking t)
    (z := s.ring.hist.enq[s.ring.hist.taken]) ⟨le_rfl, first⟩ fun π x => ?_
  cases π with
  | held u => simp [State.At]
  | free p =>
    simp only [State.At, enq, taken, Place.free.injEq, reduceCtorEq, false_and, or_false]
    constructor
    · rintro ⟨hp, hx⟩
      exact ⟨⟨by omega, hx⟩, fun e => by omega⟩
    · rintro ⟨⟨hp, hx⟩, ne⟩
      refine ⟨?_, hx⟩
      by_contra first'
      have : p = s.ring.hist.taken := by omega
      subst this
      rw [first, Option.some.injEq] at hx
      exact ne ⟨rfl, hx.symm⟩
  | taking u =>
    by_cases hu : u = t
    · subst hu
      simp only [State.At, Function.update_self, hk, enq]
      simp [Pc.claim?, kside, kpos, first, eq_comm]
    · simp [State.At, hu, enq]
  | giving u =>
    by_cases hu : u = t
    · subst hu
      simp only [State.At, Function.update_self, hc, hk]
      simp [Pc.claim?, side]
    · simp [State.At, hu]

/-- A call that takes an id returns it to its caller. -/
theorem takeReturn (h : Pooled ids s) {t : Tid} {k : Claim α} {r : RteRing α} {m n : Nat}
    {hist : History α} (hp : s.ring.pc t = .storeTail k) (side : k.call.side = .cons)
    (enq : hist.enq = s.ring.hist.enq) (taken : hist.taken = s.ring.hist.taken) :
    Owned ids (State.mk ⟨r, Function.update s.ring.pc t (.returned k.call m n), hist⟩
      (Function.update s.held t (k.call.table 0 :: s.held t))).At ∧
      k.call.table 0 ∉ s.held t := by
  have hk : (s.ring.pc t).claim? = some k := by rw [hp]; rfl
  have loc := h.ring.locals t
  rw [hp] at loc
  have value := loc.2.1.value 0 loc.1.pos_n fun _ => loc.1.pos_n
  rw [Nat.add_zero] at value
  have there : s.At (.taking t) (k.call.table 0) := ⟨k, hk, side, value⟩
  refine ⟨h.owned.move (b := .held t) there fun π x => ?_, fun held => ?_⟩
  · cases π with
    | held u =>
      by_cases hu : u = t
      · subst hu; simp [State.At, or_comm]
      · simp [State.At, hu]
    | free p => simp [State.At, enq, taken]
    | taking u =>
      by_cases hu : u = t
      · subst hu
        simp only [State.At, Function.update_self, hk, enq]
        simp [Pc.claim?, side, value, eq_comm]
      · simp [State.At, hu, enq]
    | giving u =>
      by_cases hu : u = t
      · subst hu
        simp only [State.At, Function.update_self, hk]
        simp [Pc.call?]
      · simp [State.At, hu]
  · cases h.owned.unique there (ρ := .held t) held

/-- A step with which a thread learns something leaves the ids where they are. -/
theorem owned_goto (h : Pooled ids s) {t : Tid} {p : Pc α}
    (claim : p.claim? = (s.ring.pc t).claim?)
    (call : ∀ c, c.side = .prod → (p.call? = some c ↔ (s.ring.pc t).call? = some c))
    (empty : received p = []) :
    received ((s.ring.goto t p).pc t) = [] ∧ Owned ids (State.mk (s.ring.goto t p) s.held).At := by
  refine ⟨?_, h.owned.congr (at_goto claim call)⟩
  simp only [RteRing.State.goto, Function.update_self, empty]

/-- The places and the callers' ids after the next access of a thread. -/
theorem owned_advance (h : Pooled ids s) {t : Tid} {r : RteRing.State Tid α}
    (order : InOrder s.ring t) (hr : s.ring.advance t = some r) :
    (received (r.pc t) = [] ∧ Owned ids (State.mk r s.held).At) ∨
      ∃ x, received (r.pc t) = [x] ∧ x ∉ s.held t ∧
        Owned ids (State.mk r (Function.update s.held t (x :: s.held t))).At := by
  have inv := h.ring
  cases hp : s.ring.pc t with
  | idle => simp [RteRing.State.advance, hp] at hr
  | returned c m n => simp [RteRing.State.advance, hp] at hr
  | loadHead c =>
    simp only [RteRing.State.advance, hp, Option.some.injEq] at hr
    subst hr
    refine Or.inl (h.owned_goto ?_ ?_ rfl)
    · rw [hp]; rfl
    · intro d _; rw [hp]; rfl
  | loadTail c oldHead seen =>
    have hc : (s.ring.pc t).call? = some c := by rw [hp]; rfl
    have hk : (s.ring.pc t).claim? = none := by rw [hp]; rfl
    have one := (h.calls t c hc).2
    have cur := order.head c oldHead (by rw [hp]; rfl)
    simp only [RteRing.State.advance, hp] at hr
    split_ifs at hr with none <;> cases hr
    · -- a call that gives an id back finds room
      have side : c.side = .cons := by
        cases side : c.side with
        | cons => rfl
        | prod =>
          have room := h.room hc hk side
          rw [cur, inv.entries_eq, side, one] at none
          omega
      refine Or.inl (h.owned_goto ?_ ?_ (by simp [received]))
      · rw [hk]; rfl
      · intro d dside
        rw [hc]
        refine ⟨fun e => (by cases e), fun e => ?_⟩
        cases e
        rw [dside] at side
        cases side
    · refine Or.inl (h.owned_goto ?_ ?_ rfl)
      · rw [hk]; rfl
      · intro d _; rw [hc]; rfl
  | moveHead c oldHead entries seen =>
    have hc : (s.ring.pc t).call? = some c := by rw [hp]; rfl
    have hk : (s.ring.pc t).claim? = none := by rw [hp]; rfl
    have cur := order.head c oldHead (by rw [hp]; rfl)
    have loc := inv.locals t
    rw [hp] at loc
    have room := loc.2.2.2 cur
    simp only [RteRing.State.advance, hp, (h.calls t c hc).1, true_or, if_true,
      Option.some.injEq] at hr
    subst hr
    refine Or.inl ⟨by simp [received], ?_⟩
    cases side : c.side with
    | prod => exact h.claimGive hc hk side side
    | cons =>
      refine h.claimTake hc hk side side rfl ?_
      have taken := inv.claimed .cons
      have enq := inv.claimed .prod
      have one := (h.calls t c hc).2
      obtain ⟨c1, c2, c3⟩ := inv.chain
      rw [cur, side] at room
      simp only [History.claimed, limit] at *
      omega
  | copy k done =>
    have hk : (s.ring.pc t).claim? = some k := by rw [hp]; rfl
    have loc := inv.locals t
    rw [hp] at loc
    obtain ⟨pos, slots⟩ := inv.schedule_eq hk
    have one := (h.calls t _ (Pc.call?_of_claim? hk)).2
    have last : ¬done + 1 < k.call.n := by omega
    simp only [RteRing.State.advance, hp, slots, List.getElem?_map, List.getElem?_range loc.2.1,
      Option.map_some, Option.some.injEq, List.length_map, List.length_range, last, if_false] at hr
    subst hr
    refine Or.inl ⟨?_, h.owned.congr (at_congr s _ t rfl ?_ ?_ (fun u hu => by simp [hu]) ?_ ?_)⟩
    · simp only [Function.update_self, Claim.updateTail]
      split_ifs <;> rfl
    · exact History.copy_claimed s.ring.hist k.call.side .cons _
    · exact History.copy_enq ..
    · intro x
      simp [State.At, hk]
    · intro x
      simp [State.At, hk]
  | waitTail k =>
    simp only [RteRing.State.advance, hp] at hr
    split_ifs at hr <;> cases hr <;>
    · refine Or.inl (h.owned_goto ?_ ?_ rfl)
      · simp [hp, Pc.claim?]
      · simp [hp, Pc.call?]
  | storeTail k =>
    have hk : (s.ring.pc t).claim? = some k := by rw [hp]; rfl
    have one := (h.calls t _ (Pc.call?_of_claim? hk)).2
    simp only [RteRing.State.advance, hp, Option.some.injEq] at hr
    subst hr
    cases side : k.call.side with
    | prod =>
      refine Or.inl ⟨by simp [received, side], h.owned.congr (at_congr s _ t rfl ?_ ?_
        (fun u hu => by simp [hu]) ?_ ?_)⟩
      · exact History.finish_claimed s.ring.hist k .cons
      · exact History.finish_enq ..
      · intro x
        simp only [State.At, Function.update_self, hk]
        simp [Pc.claim?, side]
      · intro x
        simp only [State.At, Function.update_self, hk]
        simp [Pc.call?]
    | cons =>
      obtain ⟨owned, new⟩ := h.takeReturn (r := s.ring.ring.setTail .cons (k.oldHead + k.call.n))
        (m := k.call.n) (n := k.entries - k.call.n) hp side (History.finish_enq s.ring.hist k)
        (History.finish_claimed s.ring.hist k .cons)
      exact Or.inr ⟨k.call.table 0, by simp [received, side, one], new, owned⟩

/-- The next access of a thread keeps the pool in order. -/
theorem advance (h : Pooled ids s) {t : Tid} {r : RteRing.State Tid α}
    (order : InOrder s.ring t) (hr : s.ring.advance t = some r) :
    Pooled ids ⟨r, Function.update s.held t (received (r.pc t) ++ s.held t)⟩ := by
  have timely : Timely s.ring t := by
    intro c o e w hp multi
    rw [(h.calls t c (by rw [hp]; rfl)).1] at multi
    cases multi
  have ring := h.ring.advance order.inTurn timely hr
  have calls : ∀ u c, (r.pc u).call? = some c → c.single = true ∧ c.n = 1 := by
    obtain ⟨p, hpc, d, hd, alike⟩ := RteRing.State.advance_pc hr
    intro u c hc
    rw [hpc] at hc
    by_cases hu : u = t
    · subst hu
      rw [Function.update_self] at hc
      obtain ⟨-, n, single⟩ := alike c hc
      rw [n, single]
      exact h.calls u d hd
    · rw [Function.update_of_ne hu] at hc
      exact h.calls u c hc
  have fits : ids.length ≤ r.ring.size := by
    rw [RteRing.State.advance_size hr]; exact h.fits
  obtain ⟨none, owned⟩ | ⟨x, got, new, owned⟩ := h.owned_advance order hr
  · rw [none, List.nil_append, Function.update_eq_self]
    exact ⟨ring, calls, fits, h.nodup, owned⟩
  · rw [got]
    refine ⟨ring, calls, fits, fun u => ?_, owned⟩
    by_cases hu : u = t
    · subst hu; simpa [new] using h.nodup u
    · simpa [hu] using h.nodup u

/-- Every step keeps a pool in order that accepts its own ids. -/
theorem step [DecidableEq α] {blank : α} {accepts : α → Bool} (own : ∀ x ∈ ids, accepts x = true)
    {s' : State Tid α} (h : Pooled ids s) {m : Tid × Move α} (order : InOrder s.ring m.1)
    (hs : s.step blank accepts m = some s') : Pooled ids s' := by
  have enter : ∀ {t : Tid} {c : Call α} {r : RteRing.State Tid α}, s.ring.enter t c = some r →
      c.single = true ∧ c.n = 1 → RteRing.Inv r ∧
        (∀ u d, (r.pc u).call? = some d → d.single = true ∧ d.n = 1) ∧
        r.ring.size = s.ring.ring.size := by
    intro t c r hr one
    have idle := RteRing.State.enter_idle hr
    rw [RteRing.State.enter_eq hr]
    refine ⟨h.ring.goto trivial ?_, fun u d hd => ?_, rfl⟩
    · rw [Pc.claim?_of_call? idle]; rfl
    · by_cases hu : u = t
      · subst hu
        simp only [RteRing.State.goto, Function.update_self, Pc.call?, Option.some.injEq] at hd
        rw [← hd]; exact one
      · exact h.calls u d (by simpa [RteRing.State.goto, hu] using hd)
  obtain ⟨t, take | id | _⟩ := m
  · obtain ⟨r, hr, rfl⟩ := Option.map_eq_some_iff.mp hs
    obtain ⟨ring, calls, size⟩ := enter hr ⟨rfl, rfl⟩
    exact ⟨ring, calls, h.fits.trans size.ge, h.nodup, h.take hr⟩
  · simp only [State.step] at hs
    by_cases has : id ∈ s.held t
    · rw [if_pos has] at hs
      obtain ⟨r, hr, rfl⟩ := Option.map_eq_some_iff.mp hs
      obtain ⟨ring, calls, size⟩ := enter hr ⟨rfl, rfl⟩
      rw [own id ((h.owned.cover id).mpr ⟨.held t, has⟩), if_pos rfl]
      refine ⟨ring, calls, h.fits.trans size.ge, fun u => ?_, h.give has hr⟩
      by_cases hu : u = t
      · subst hu; simpa using (h.nodup u).erase id
      · simpa [hu] using h.nodup u
    · rw [if_neg has] at hs; cases hs
  · obtain ⟨r, hr, rfl⟩ := Option.map_eq_some_iff.mp hs
    exact h.advance order hr

end Pooled

/-- At first every id is free at its own position. -/
theorem at_stocked {r : RteRing α} {ids : List α} {π : Place Tid} {x : α} :
    (stocked Tid (r, ids)).At π x ↔ ∃ p, π = .free p ∧ ids[p]? = some x := by
  cases π <;> simp [State.At, stocked, Pc.claim?, Pc.call?]

/-- A stocked ring is a pool of its ids. -/
theorem Stocked.pooled {r : RteRing α} {ids : List α} (h : Stocked r ids) (nodup : ids.Nodup) :
    Pooled ids (stocked Tid (r, ids)) := by
  refine ⟨h.inv, fun t c hc => (by cases hc), h.fits, fun t => List.nodup_nil, ?_, fun x => ?_⟩
  · intro π ρ x hπ hρ
    obtain ⟨p, rfl, hp⟩ := at_stocked.mp hπ
    obtain ⟨q, rfl, hq⟩ := at_stocked.mp hρ
    obtain ⟨hp', ep⟩ := List.getElem?_eq_some_iff.mp hp
    obtain ⟨hq', eq⟩ := List.getElem?_eq_some_iff.mp hq
    rw [(List.Nodup.getElem_inj_iff nodup).mp (ep.trans eq.symm)]
  · rw [List.mem_iff_getElem?]
    exact ⟨fun ⟨p, hp⟩ => ⟨.free p, at_stocked.mpr ⟨p, rfl, hp⟩⟩,
      fun ⟨π, hπ⟩ => (at_stocked.mp hπ).imp fun _ h => h.2⟩

/-- The side condition of the runs in which a pool works. -/
def inOrder {M : Type*} (s : State Tid α) (m : Tid × M) (_ : State Tid α) : Prop :=
  InOrder s.ring m.1

instance {M : Type*} (s : State Tid α) (m : Tid × M) (s' : State Tid α) :
    Decidable (inOrder s m s') :=
  inferInstanceAs (Decidable (InOrder s.ring m.1))

/-- In every run with its plain stores in order, every id sits in one place. -/
theorem reach_pooled [DecidableEq Tid] [DecidableEq α] {blank : α} {accepts : α → Bool}
    {stock : RteRing α × List α} (stocked : Stocked stock.1 stock.2) (nodup : stock.2.Nodup)
    (own : ∀ x ∈ stock.2, accepts x = true) {s : State Tid α}
    (h : (machine blank accepts stock).Reach inOrder s) : Pooled stock.2 s := by
  refine h.inv ?_ ?_
  · rintro s rfl
    exact stocked.pooled nodup
  · intro s m s' pooled hs order
    exact pooled.step own order hs

end Fuxi.Base.IdPool
