import Fuxi.Base.RteRing.Invariant

/-!
# The concurrent ring is exactly-once and ordered

A side of the ring is used in one of two ways: all its calls take the multi path, or
one thread makes all its calls. Under this discipline whoever is on a single path is
alone on its side, so its plain stores come in turn and the invariant holds in every
reachable state.
-/

namespace Fuxi.Base.RteRing

open Lib

variable {α Tid : Type*}

/-- Who calls one side of the ring: anybody through the multi path, or one thread. -/
inductive Rule (Tid : Type*)
  | multi
  | only (t : Tid)

/-- A thread may make this call. -/
def Rule.Admits : Rule Tid → Tid → Call α → Prop
  | .multi, _, c => c.single = false
  | .only u, t, _ => t = u

instance [DecidableEq Tid] (r : Rule Tid) (t : Tid) (c : Call α) : Decidable (r.Admits t c) :=
  match r with
  | .multi => inferInstanceAs (Decidable (c.single = false))
  | .only u => inferInstanceAs (Decidable (t = u))

instance (s : State Tid α) (t : Tid) : Decidable (Timely s t) :=
  match h : s.pc t with
  | .moveHead c _ _ seen =>
    decidable_of_iff (c.single = false → s.hist.claimed c.side < seen + 4294967296) (by
      refine ⟨fun hc c' o e w hp => ?_, fun ht => ht c _ _ seen h⟩
      cases h.symm.trans hp
      exact hc)
  | .idle | .loadHead _ | .loadTail _ _ _ | .copy _ _ | .waitTail _ | .storeTail _
  | .returned _ _ _ => .isTrue fun c o e w hp => by cases h.symm.trans hp

/-- Calls obey the rule of their side, and no compare-exchange is late. -/
def disciplined (rules : Side → Rule Tid) (s : State Tid α) (m : Tid × Move α)
    (_ : State Tid α) : Prop :=
  (∀ c, m.2 = .call c → (rules c.side).Admits m.1 c) ∧ Timely s m.1

instance [DecidableEq Tid] (rules : Side → Rule Tid) (s s' : State Tid α) (m : Tid × Move α) :
    Decidable (disciplined rules s m s') :=
  match m with
  | (t, .call c) =>
    decidable_of_iff ((rules c.side).Admits t c ∧ Timely s t) (by simp [disciplined])
  | (t, .step) => decidable_of_iff (Timely s t) (by simp [disciplined])

/-- Whoever uses a single path is the only one on its side. -/
def Alone (s : State Tid α) : Prop :=
  ∀ t u c d, (s.pc t).call? = some c → (s.pc u).call? = some d → c.side = d.side →
    c.single = true → t = u

/-- The calls that are running obey the rules. -/
def Obeyed (rules : Side → Rule Tid) (s : State Tid α) : Prop :=
  ∀ t c, (s.pc t).call? = some c → (rules c.side).Admits t c

theorem Obeyed.alone {rules : Side → Rule Tid} {s : State Tid α} (h : Obeyed rules s) :
    Alone s := by
  intro t u c d hc hd side single
  have ht := h t c hc
  have hu := h u d hd
  rw [← side] at hu
  cases hr : rules c.side with
  | multi => rw [hr, Rule.Admits, single] at ht; cases ht
  | only v => rw [hr] at ht hu; exact ht.trans hu.symm

theorem Rule.Admits.of_alike {r : Rule Tid} {t : Tid} {c d : Call α} (h : r.Admits t c)
    (alike : d.Alike c) : r.Admits t d := by
  cases r with
  | multi => exact alike.2.2.trans h
  | only u => exact h

/-- The distances of the four counters as 32-bit words, seen from `cons.tail`. -/
def Distances (r : RteRing α) : Prop :=
  sub32 r.cons.head r.cons.tail ≤ sub32 r.prod.tail r.cons.tail ∧
    sub32 r.prod.tail r.cons.tail ≤ sub32 r.prod.head r.cons.tail ∧
    sub32 r.prod.head r.cons.tail ≤ r.capacity

/-- Thread `t` is about to copy the position `q` of its claim, which is slot `slot`. -/
def CopiesNext (s : State Tid α) (t : Tid) (σ : Side) (q slot : Nat) : Prop :=
  ∃ k done i, s.pc t = .copy k done ∧ k.call.side = σ ∧ q = k.pos + i ∧
    (s.ring.schedule k.oldHead k.call.n)[done]? = some (slot, i)

/-- What the ring promises in every state. The elements of successful `DoEnqueue`
calls are numbered in claim order, and `(p, n, table)` in `returned` is a `DoDequeue`
that claimed the positions `[p, p + n)`. -/
structure Exact (s : State Tid α) : Prop where
  values : ∀ r ∈ s.hist.returned, ∀ i < r.2.1, s.hist.enq[r.1 + i]? = some (r.2.2 i)
  once : s.hist.returned.Pairwise fun a b => b.1 + b.2.1 ≤ a.1
  noOverwrite : ∀ t q slot, CopiesNext s t .prod q slot →
    ∀ p < s.hist.enq.length, p ≠ q → p % s.ring.size = slot → p ∈ s.hist.copiedOut
  noEarlyRead : ∀ t q slot, CopiesNext s t .cons q slot →
    q ∈ s.hist.copiedIn ∧ s.hist.enq[q]? = some (s.ring.storage slot)
  distances : Distances s.ring

namespace Inv

variable {s : State Tid α}

/-- What the copy loop visits next. -/
theorem copiesNext (h : Inv s) {t : Tid} {σ : Side} {q slot : Nat} (hc : CopiesNext s t σ q slot) :
    slot = q % s.ring.size ∧ (s.ring.ht σ).tail ≤ q ∧ q < (s.ring.ht σ).head := by
  obtain ⟨k, done, i, hp, rfl, rfl, hslot⟩ := hc
  have hk : (s.pc t).claim? = some k := by rw [hp]; rfl
  have ok := h.claimOk hk
  have above := ok.above
  have below := ok.below
  rw [(h.schedule_eq hk).2] at hslot
  obtain ⟨hlt, eq⟩ := List.getElem?_eq_some_iff.mp hslot
  simp only [List.length_map, List.length_range] at hlt
  simp only [List.getElem_map, List.getElem_range, Prod.mk.injEq] at eq
  obtain ⟨rfl, rfl⟩ := eq
  exact ⟨rfl, by omega, by omega⟩

/-- The claim of a thread that is alone on its side starts at the tail. -/
theorem tail_eq_of_alone (h : Inv s) (alone : Alone s) {t : Tid} {k : Claim α}
    (hk : (s.pc t).claim? = some k) (single : k.call.single = true) :
    (s.ring.ht k.call.side).tail = k.pos := by
  have ok := h.claimOk hk
  by_contra ne
  have hlt : (s.ring.ht k.call.side).tail < k.pos := lt_of_le_of_ne ok.above ne
  have below := ok.below
  obtain ⟨u, l, hl, side, holds⟩ :=
    h.cover k.call.side (s.ring.ht k.call.side).tail le_rfl (by omega)
  have : t = u :=
    alone t u _ _ (Pc.call?_of_claim? hk) (Pc.call?_of_claim? hl) side.symm single
  subst this
  cases hk.symm.trans hl
  exact absurd holds.1 (by omega)

theorem distances (h : Inv s) : Distances s.ring := by
  obtain ⟨h1, h2, h3⟩ := h.chain
  have hw := h.window
  have hsize := h.sized.size_le
  have hcap := h.sized.capacity_eq
  simp only [ht] at h1 h2 h3 hw
  unfold Distances
  rw [sub32_eq h1 (by omega), sub32_eq (h1.trans h2) (by omega),
    sub32_eq ((h1.trans h2).trans h3) (by omega)]
  omega

/-- The invariant gives what the ring promises. -/
theorem exact (h : Inv s) : Exact s := by
  obtain ⟨c1, c2, c3⟩ := h.chain
  refine ⟨fun r hr => (h.returned r hr).2, h.ordered, ?_, ?_, h.distances⟩
  · intro t q slot next p hp ne hslot
    obtain ⟨rfl, hq, hq'⟩ := h.copiesNext next
    apply h.copied_of_lt .cons
    by_contra live
    have head : p < (s.ring.ht .prod).head := by rw [h.claimed]; exact hp
    exact h.slot_ne (not_lt.mp live) head (by omega) hq' ne hslot
  · intro t q slot next
    obtain ⟨rfl, hq, hq'⟩ := h.copiesNext next
    have hin : q ∈ s.hist.copied .prod := h.copied_of_lt .prod q (by omega)
    exact ⟨hin, h.live q hq hin⟩

end Inv

/-- A head that a single path has read is up to date. -/
def Fresh (s : State Tid α) : Prop :=
  ∀ t c o, (s.pc t).read? = some (c, o) → c.single = true → o = (s.ring.ht c.side).head

/-- Whoever is alone makes its plain stores in turn. -/
theorem Fresh.inTurn {s : State Tid α} (h : Fresh s) (inv : Inv s) (alone : Alone s) (t : Tid) :
    InTurn s t := by
  refine ⟨fun c o e w hp single => h t c o (by rw [hp]; rfl) single, fun k hp single => ?_⟩
  have hk : (s.pc t).claim? = some k := by rw [hp]; rfl
  rw [inv.tail_eq_of_alone alone hk single, (inv.claimOk hk).head_eq]

/-! ## Runs -/

variable [DecidableEq Tid] {rules : Side → Rule Tid}

theorem Obeyed.step {s s' : State Tid α} {m : Tid × Move α} (h : Obeyed rules s)
    (calls : ∀ c, m.2 = .call c → (rules c.side).Admits m.1 c) (hs : s.step m = some s') :
    Obeyed rules s' := by
  obtain ⟨u, d | _⟩ := m
  · have enter := State.enter_eq hs
    subst enter
    intro t c hc
    by_cases ht : t = u
    · subst ht
      simp only [State.goto, Function.update_self, Pc.call?, Option.some.injEq] at hc
      subst hc
      exact calls d rfl
    · simp only [State.goto, Function.update_of_ne ht] at hc
      exact h t c hc
  · obtain ⟨p, hpc, d, hd, alike⟩ := State.advance_pc hs
    intro t c hc
    rw [hpc] at hc
    by_cases ht : t = u
    · subst ht
      rw [Function.update_self] at hc
      have := h t d hd
      rw [← (alike c hc).1] at this
      exact this.of_alike (alike c hc)
    · rw [Function.update_of_ne ht] at hc
      exact h t c hc

theorem Fresh.step {s s' : State Tid α} {m : Tid × Move α} (h : Fresh s) (alone : Alone s)
    (hs : s.step m = some s') : Fresh s' := by
  obtain ⟨u, d | _⟩ := m
  · have enter := State.enter_eq hs
    subst enter
    intro t c o ho
    by_cases ht : t = u
    · subst ht; simp [State.goto, Pc.read?] at ho
    · exact h t c o (by simpa [State.goto, ht] using ho)
  · intro t c o ho single
    obtain ⟨p, hpc, -⟩ := State.advance_pc hs
    by_cases ht : t = u
    · subst ht
      obtain ⟨heads, keep⟩ | ⟨d, -, none, -⟩ := State.advance_read hs
      · rw [heads]
        exact (keep c o ho).elim id fun old => h t c o old single
      · rw [none] at ho; cases ho
    · have old : (s.pc t).read? = some (c, o) := by
        rwa [hpc, Function.update_of_ne ht] at ho
      have up := h t c o old single
      obtain ⟨heads, -⟩ | ⟨d, hd, -, heads⟩ := State.advance_read hs
      · rw [heads, up]
      · rw [heads c.side, up]
        exact fun side => ht (alone t u c d (Pc.call?_of_read? old) hd side single)

/-- The invariant holds in every state that disciplined calls reach. -/
theorem reach_inv (zero : α) (objectNum : Nat) (isSp isSc : Bool) {s : State Tid α}
    (h : (machine zero objectNum isSp isSc).Reach (disciplined rules) s) :
    Inv s ∧ Obeyed rules s ∧ Fresh s := by
  refine h.inv (P := fun s => Inv s ∧ Obeyed rules s ∧ Fresh s) ?_ ?_
  · rintro s rfl
    exact ⟨inv_fresh .., fun t c hc => by simp [fresh, Pc.call?] at hc,
      fun t c o ho => by simp [fresh, Pc.read?] at ho⟩
  · rintro s m s' ⟨inv, obeyed, fresh⟩ hs ⟨calls, timely⟩
    have turn := fresh.inTurn inv obeyed.alone m.1
    exact ⟨inv.step turn timely hs, obeyed.step calls hs, fresh.step obeyed.alone hs⟩

/-- In every interleaving of disciplined calls the ring is exactly-once and ordered. -/
theorem exact_of_reach (zero : α) (objectNum : Nat) (isSp isSc : Bool) (rules : Side → Rule Tid)
    {s : State Tid α} (h : (machine zero objectNum isSp isSc).Reach (disciplined rules) s) :
    Exact s :=
  (reach_inv zero objectNum isSp isSc h).1.exact

/-- Two producers on the multi path race for one slot each and one consumer takes both
elements: thread 1 claims between the head read of thread 0 and its compare-exchange. -/
def race : List (Nat × Move Nat) :=
  [(0, .call ⟨.prod, 1, fun _ => 7, false⟩), (1, .call ⟨.prod, 1, fun _ => 9, false⟩),
    (0, .step), (0, .step), (1, .step), (1, .step), (1, .step), (0, .step), (0, .step), (0, .step),
    (0, .step), (0, .step), (1, .step), (1, .step), (1, .step), (0, .step), (0, .step),
    (2, .call ⟨.cons, 2, fun _ => 0, true⟩),
    (2, .step), (2, .step), (2, .step), (2, .step), (2, .step), (2, .step)]

/-- Any producer through the multi path, one consumer. -/
def raceRules : Side → Rule Nat
  | .prod => .multi
  | .cons => .only 2

/-- The race obeys the rules, and the consumer gets both elements in claim order. -/
theorem exact_of_reach_race :
    ∃ s, (machine 0 2 false false).run (fresh Nat 0 2 false false) race = some s ∧
      s.hist.enq = [9, 7] ∧ s.hist.returned.map (fun r => (r.1, r.2.1, r.2.2 0, r.2.2 1)) =
        [(0, 2, 9, 7)] ∧ Exact s := by
  have along : (machine 0 2 false false).Along (disciplined raceRules)
      (fresh Nat 0 2 false false) race := by decide +kernel
  have seen : (((machine 0 2 false false).run (fresh Nat 0 2 false false) race).map fun s =>
      (s.hist.enq, s.hist.returned.map fun r => (r.1, r.2.1, r.2.2 0, r.2.2 1))) =
        some ([9, 7], [(0, 2, 9, 7)]) := by decide +kernel
  obtain ⟨s, run, reach, seen⟩ := Machine.Reach.of_along_seen (.start rfl) along seen
  simp only [Prod.mk.injEq] at seen
  exact ⟨s, run, seen.1, seen.2, exact_of_reach 0 2 false false raceRules reach⟩

end Fuxi.Base.RteRing
