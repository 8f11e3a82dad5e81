import Fuxi.Base.RteRing.Interleaving
import Fuxi.Lib.Fifo

/-!
# The invariant of the interleaved ring

Every step keeps `Inv`, provided that the plain stores of a single path come in turn
and that a compare-exchange is timely. The shared part orders the four counters; the
local part says what a thread knows between its steps; the claims that are not
published yet tile the positions between the tail and the head of their side.
-/

namespace Fuxi.Base.RteRing

open Lib

variable {α Tid : Type*}

/-- The bound that the other side puts on the head of a side. -/
def limit (r : RteRing α) : Side → Nat
  | .prod => (r.ht .cons).tail + r.capacity
  | .cons => (r.ht .prod).tail

/-- The first `d` copies of a claim are done. -/
structure Filled (h : History α) (k : Claim α) (d : Nat) : Prop where
  copied : ∀ i < d, k.pos + i ∈ h.copied k.call.side
  value : ∀ i < k.call.n, (k.call.side = .cons → i < d) →
    h.enq[k.pos + i]? = some (k.call.table i)

/-- The positions of a claim lie between the tail and the head of its side. -/
structure ClaimOk (r : RteRing α) (k : Claim α) : Prop where
  head_eq : k.oldHead = k.pos
  pos_n : 0 < k.call.n
  above : (r.ht k.call.side).tail ≤ k.pos
  below : k.pos + k.call.n ≤ (r.ht k.call.side).head

/-- What a thread knows at each point of its call. -/
def Local (r : RteRing α) (h : History α) : Pc α → Prop
  | .idle | .loadHead _ | .returned _ _ _ => True
  | .loadTail c oldHead seen =>
    oldHead = seen ∧ oldHead ≤ (r.ht c.side).head
  | .moveHead c oldHead _ seen =>
    oldHead = seen ∧ oldHead ≤ (r.ht c.side).head ∧ 0 < c.n ∧
      (oldHead = (r.ht c.side).head → oldHead + c.n ≤ r.limit c.side)
  | .copy k done => ClaimOk r k ∧ done < k.call.n ∧ Filled h k done
  | .waitTail k => ClaimOk r k ∧ Filled h k k.call.n
  | .storeTail k =>
    ClaimOk r k ∧ Filled h k k.call.n ∧
      (k.call.single = false → (r.ht k.call.side).tail = k.pos)

@[simp] theorem limit_setHead (r : RteRing α) (σ τ : Side) (v : Nat) :
    (r.setHead σ v).limit τ = r.limit τ := by cases σ <;> cases τ <;> rfl

@[simp] theorem limit_setStorage (r : RteRing α) (f : Nat → α) (τ : Side) :
    (r.setStorage f).limit τ = r.limit τ := by cases τ <;> rfl

theorem Filled.mono {h h' : History α} {k : Claim α} {d : Nat} (f : Filled h k d)
    (copied : ∀ σ p, p ∈ h.copied σ → p ∈ h'.copied σ)
    (enq : ∀ (p : Nat) (v : α), h.enq[p]? = some v → h'.enq[p]? = some v) : Filled h' k d :=
  ⟨fun i hi => copied _ _ (f.copied i hi), fun i hi hd => enq _ _ (f.value i hi hd)⟩

/-- What a thread knows survives the steps of the others: heads and limits grow, the
tail at a pending store stays, tails stop below claims. -/
theorem Local.mono {r r' : RteRing α} {h h' : History α} {p : Pc α} (loc : Local r h p)
    (head : ∀ σ, (r.ht σ).head ≤ (r'.ht σ).head) (lim : ∀ σ, r.limit σ ≤ r'.limit σ)
    (above : ∀ k, p.claim? = some k → (r'.ht k.call.side).tail ≤ k.pos)
    (turn : ∀ k, p = .storeTail k → k.call.single = false →
      (r'.ht k.call.side).tail = (r.ht k.call.side).tail)
    (copied : ∀ σ q, q ∈ h.copied σ → q ∈ h'.copied σ)
    (enq : ∀ (q : Nat) (v : α), h.enq[q]? = some v → h'.enq[q]? = some v) : Local r' h' p := by
  have claimOk : ∀ {k}, ClaimOk r k → p.claim? = some k → ClaimOk r' k := fun ok hk =>
    ⟨ok.head_eq, ok.pos_n, above _ hk, ok.below.trans (head _)⟩
  cases p with
  | idle => trivial
  | loadHead c => trivial
  | returned c m n => trivial
  | loadTail c o w =>
    exact ⟨loc.1, loc.2.trans (head _)⟩
  | moveHead c o e w =>
    obtain ⟨h1, h2, h3, h4⟩ := loc
    refine ⟨h1, h2.trans (head _), h3, fun eq => ?_⟩
    have := head c.side
    exact (h4 (by omega)).trans (lim _)
  | copy k d => exact ⟨claimOk loc.1 rfl, loc.2.1, loc.2.2.mono copied enq⟩
  | waitTail k => exact ⟨claimOk loc.1 rfl, loc.2.mono copied enq⟩
  | storeTail k =>
    exact ⟨claimOk loc.1 rfl, loc.2.1.mono copied enq,
      fun multi => (turn k rfl multi).trans (loc.2.2 multi)⟩

/-- The invariant of all reachable states. -/
structure Inv (s : State Tid α) : Prop where
  sized : s.ring.WellSized
  tail_le : ∀ σ, (s.ring.ht σ).tail ≤ (s.ring.ht σ).head
  head_le : ∀ σ, (s.ring.ht σ).head ≤ s.ring.limit σ
  claimed : ∀ σ, (s.ring.ht σ).head = s.hist.claimed σ
  locals : ∀ t, Local s.ring s.hist (s.pc t)
  disjoint : ∀ t u k l, (s.pc t).claim? = some k → (s.pc u).claim? = some l →
    k.call.side = l.call.side → t ≠ u → k.pos + k.call.n ≤ l.pos ∨ l.pos + l.call.n ≤ k.pos
  cover : ∀ σ p, (s.ring.ht σ).tail ≤ p → p < (s.ring.ht σ).head →
    ∃ t k, (s.pc t).claim? = some k ∧ k.call.side = σ ∧ k.Holds p
  copied_lt : ∀ σ p, p ∈ s.hist.copied σ → p < (s.ring.ht σ).head
  copied_of_lt : ∀ σ p, p < (s.ring.ht σ).tail → p ∈ s.hist.copied σ
  live : ∀ p, (s.ring.ht .cons).tail ≤ p → p ∈ s.hist.copied .prod →
    s.hist.enq[p]? = some (s.ring.storage (p % s.ring.size))
  ordered : s.hist.returned.Pairwise fun a b => b.1 + b.2.1 ≤ a.1
  returned : ∀ r ∈ s.hist.returned, r.1 + r.2.1 ≤ (s.ring.ht .cons).tail ∧
    ∀ i < r.2.1, s.hist.enq[r.1 + i]? = some (r.2.2 i)

namespace Inv

variable {s : State Tid α}

/-- An unpublished claim is well placed. -/
theorem claimOk (h : Inv s) {t : Tid} {k : Claim α} (hk : (s.pc t).claim? = some k) :
    ClaimOk s.ring k := by
  have loc := h.locals t
  cases hp : s.pc t <;> rw [hp] at hk loc <;> cases hk <;> exact loc.1

/-- The claimed positions of a producer are numbered in the order of its table. -/
theorem value (h : Inv s) {t : Tid} {k : Claim α} (hk : (s.pc t).claim? = some k)
    (side : k.call.side = .prod) {i : Nat} (hi : i < k.call.n) :
    s.hist.enq[k.pos + i]? = some (k.call.table i) := by
  have loc := h.locals t
  have noCons : ∀ {P : Prop}, k.call.side = .cons → P := fun hs => by rw [side] at hs; cases hs
  cases hp : s.pc t <;> rw [hp] at hk loc <;> cases hk
  · exact loc.2.2.value i hi noCons
  · exact loc.2.value i hi noCons
  · exact loc.2.1.value i hi noCons

/-- The positions that are claimed but not consumed fit into the ring. -/
theorem window (h : Inv s) : (s.ring.ht .prod).head ≤ (s.ring.ht .cons).tail + s.ring.size := by
  have := h.head_le .prod
  rw [← h.sized.capacity_eq]; exact this

theorem chain (h : Inv s) : (s.ring.ht .cons).tail ≤ (s.ring.ht .cons).head ∧
    (s.ring.ht .cons).head ≤ (s.ring.ht .prod).tail ∧
    (s.ring.ht .prod).tail ≤ (s.ring.ht .prod).head :=
  ⟨h.tail_le .cons, h.head_le .cons, h.tail_le .prod⟩

/-- The entries that a caller computes from an up-to-date head are the room it has. -/
theorem entries_eq (h : Inv s) (σ : Side) :
    s.ring.entries σ (s.ring.ht σ).head = s.ring.limit σ - (s.ring.ht σ).head := by
  have hsize := h.sized.size_le
  have hcap := h.sized.capacity_eq
  have hw := h.window
  obtain ⟨h1, h2, h3⟩ := h.chain
  cases σ with
  | prod =>
    have le := h.head_le .prod
    simp only [limit, entries, ht] at *
    rw [sub32_eq (by omega) (by omega), Nat.add_comm]
  | cons =>
    have le := h.head_le .cons
    simp only [limit, entries, ht] at *
    rw [sub32_eq (by omega) (by omega)]

/-- A claim starts less than `2^32` positions above the tail of its side. -/
theorem near (h : Inv s) {t : Tid} {k : Claim α} (hk : (s.pc t).claim? = some k) :
    k.pos < (s.ring.ht k.call.side).tail + 4294967296 := by
  have ok := h.claimOk hk
  have pos := ok.pos_n
  have below := ok.below
  have hw := h.window
  have hsize := h.sized.size_le
  obtain ⟨h1, h2, h3⟩ := h.chain
  cases hs : k.call.side <;> rw [hs] at below <;> omega

/-- The slot loop of a claim visits the slots of its positions. -/
theorem schedule_eq (h : Inv s) {t : Tid} {k : Claim α} (hk : (s.pc t).claim? = some k) :
    0 < s.ring.size ∧ s.ring.schedule k.oldHead k.call.n =
      (List.range k.call.n).map fun i => ((k.pos + i) % s.ring.size, i) := by
  have ok := h.claimOk hk
  have hw := h.window
  obtain ⟨h1, h2, h3⟩ := h.chain
  have bound : k.call.n ≤ s.ring.size := by
    have h4 := ok.above
    have h5 := ok.below
    cases hs : k.call.side <;> rw [hs] at h4 h5 <;> omega
  have pos : 0 < s.ring.size := ok.pos_n.trans_le bound
  rw [ok.head_eq]
  exact ⟨pos, h.sized.schedule_eq pos _ bound⟩

/-- Positions of the live window use different slots. -/
theorem slot_ne (h : Inv s) {p q : Nat} (hp : (s.ring.ht .cons).tail ≤ p)
    (hp' : p < (s.ring.ht .prod).head) (hq : (s.ring.ht .cons).tail ≤ q)
    (hq' : q < (s.ring.ht .prod).head) (ne : p ≠ q) : p % s.ring.size ≠ q % s.ring.size := by
  have hw := h.window
  exact fun eq => ne (slot_inj (by omega) (by omega) eq)

/-! ## Copies -/

section Copy

variable {t : Tid} {k : Claim α} {done : Nat}

/-- One copy more of the claim is done. -/
theorem copy_filled (h : Inv s) (hp : s.pc t = .copy k done) :
    Filled (s.hist.copy k.call.side (k.pos + done))
      (k.copied s.ring.storage ((k.pos + done) % s.ring.size, done)) (done + 1) := by
  have loc := h.locals t
  rw [hp] at loc
  obtain ⟨ok, lt, filled⟩ := loc
  refine ⟨fun i hi => ?_, fun i hi hd => ?_⟩
  · rcases Nat.lt_succ_iff_lt_or_eq.mp hi with hi | rfl
    · exact s.hist.mem_copied_copy _ _ _ (filled.copied i hi)
    · simp [History.copy_copied, Claim.copied]
  · rw [History.copy_enq]
    cases hs : k.call.side with
    | prod =>
      have := filled.value i hi (by simp [hs])
      simpa [Claim.copied, copyOne, hs] using this
    | cons =>
      obtain ⟨-, c2, -⟩ := h.chain
      have hi' : i < done + 1 := hd hs
      have above := ok.above
      have below := ok.below
      rw [hs] at above below
      by_cases e : i = done
      · subst e
        have live := h.live (k.pos + i) (by omega) (h.copied_of_lt .prod _ (by omega))
        simpa [Claim.copied, copyOne, hs] using live
      · have := filled.value i hi fun _ => by omega
        simpa [Claim.copied, copyOne, hs, e] using this

/-- The slots that are still to be read hold what was put in. -/
theorem copy_live (h : Inv s) (hp : s.pc t = .copy k done) {q : Nat}
    (h1 : (s.ring.ht .cons).tail ≤ q)
    (h2 : q ∈ (s.hist.copy k.call.side (k.pos + done)).copied .prod) :
    s.hist.enq[q]? = some ((copyOne k.call.side ((k.pos + done) % s.ring.size, done)
      s.ring.storage k.call.table).1 (q % s.ring.size)) := by
  have loc := h.locals t
  rw [hp] at loc
  obtain ⟨ok, lt, filled⟩ := loc
  rw [History.copy_copied] at h2
  cases hs : k.call.side with
  | cons =>
    rw [hs] at h2
    exact h.live q h1 h2
  | prod =>
    obtain ⟨c1, c2, c3⟩ := h.chain
    have above := ok.above
    have below := ok.below
    rw [hs] at h2 above below
    rw [if_pos rfl] at h2
    by_cases eq : q = k.pos + done
    · subst eq
      have := filled.value done lt (by simp [hs])
      simpa [copyOne] using this
    · have h2 := (List.mem_cons.mp h2).resolve_left eq
      have ne :=
        h.slot_ne h1 (h.copied_lt .prod q h2) (show _ ≤ k.pos + done by omega) (by omega) eq
      simpa [copyOne, ne] using h.live q h1 h2

end Copy

/-! ## Publications -/

section Publication

variable {t : Tid} {k : Claim α}

/-- A published claim was the first of its side. -/
theorem storeTail_after (h : Inv s) (hp : s.pc t = .storeTail k)
    (turn : (s.ring.ht k.call.side).tail = k.pos) {u : Tid} {l : Claim α} (hu : u ≠ t)
    (hl : (s.pc u).claim? = some l) (side : l.call.side = k.call.side) :
    k.pos + k.call.n ≤ l.pos := by
  have hk : (s.pc t).claim? = some k := by rw [hp]; rfl
  have ok := h.claimOk hl
  have above := ok.above
  have pos := ok.pos_n
  have pos' := (h.claimOk hk).pos_n
  rw [side] at above
  have := h.disjoint t u k l hk hl side.symm (Ne.symm hu)
  omega

theorem storeTail_grow (turn : (s.ring.ht k.call.side).tail = k.pos) (σ : Side) :
    (s.ring.ht σ).tail ≤ ((s.ring.setTail k.call.side (k.pos + k.call.n)).ht σ).tail := by
  rw [setTail_tail]
  split_ifs with e
  · subst e; omega
  · exact le_rfl

/-- What has been published so far has been copied. -/
theorem storeTail_copied (h : Inv s) (hp : s.pc t = .storeTail k)
    (turn : (s.ring.ht k.call.side).tail = k.pos) {σ : Side} {q : Nat}
    (hq : q < ((s.ring.setTail k.call.side (k.pos + k.call.n)).ht σ).tail) :
    q ∈ s.hist.copied σ := by
  have loc := h.locals t
  rw [hp] at loc
  rw [setTail_tail] at hq
  split_ifs at hq with e
  · subst e
    by_cases old : q < (s.ring.ht k.call.side).tail
    · exact h.copied_of_lt _ q old
    · have := loc.2.1.copied (q - k.pos) (by omega)
      rwa [Nat.add_sub_cancel' (by omega)] at this
  · exact h.copied_of_lt σ q hq

/-- A pop returns the elements of its positions, which it frees. -/
theorem storeTail_returned (h : Inv s) (hp : s.pc t = .storeTail k)
    (turn : (s.ring.ht k.call.side).tail = k.pos) {r : Nat × Nat × (Nat → α)}
    (hr : r ∈ (s.hist.finish k).returned) :
    r.1 + r.2.1 ≤ ((s.ring.setTail k.call.side (k.pos + k.call.n)).ht .cons).tail ∧
      ∀ i < r.2.1, s.hist.enq[r.1 + i]? = some (r.2.2 i) := by
  have loc := h.locals t
  rw [hp] at loc
  have older : r ∈ s.hist.returned → _ := fun hr =>
    (⟨(h.returned r hr).1.trans (storeTail_grow turn .cons), (h.returned r hr).2⟩ : _ ∧ _)
  cases hs : k.call.side with
  | prod =>
    rw [History.finish, hs] at hr
    simpa [hs] using older hr
  | cons =>
    simp only [History.finish, hs, List.mem_cons] at hr
    rcases hr with rfl | hr
    · exact ⟨by simp, fun i hi => loc.2.1.value i hi fun _ => hi⟩
    · simpa [hs] using older hr

end Publication

/-! ## One step -/

variable [DecidableEq Tid]

/-- A claim after one thread has gone on. -/
theorem claim_update {pc : Tid → Pc α} {t u : Tid} {p : Pc α} {k : Claim α}
    (hk : (Function.update pc t p u).claim? = some k) :
    u = t ∧ p.claim? = some k ∨ u ≠ t ∧ (pc u).claim? = some k := by
  by_cases hu : u = t
  · subst hu
    rw [Function.update_self] at hk
    exact Or.inl ⟨rfl, hk⟩
  · rw [Function.update_of_ne hu] at hk
    exact Or.inr ⟨hu, hk⟩

/-- What the threads know after one of them has gone on. -/
theorem local_update {pc : Tid → Pc α} {t : Tid} {p : Pc α} {r : RteRing α} {hist : History α}
    (mine : Local r hist p) (others : ∀ u, u ≠ t → Local r hist (pc u)) :
    ∀ u, Local r hist (Function.update pc t p u) :=
  (Function.forall_update_iff pc fun _ q => Local r hist q).mpr ⟨mine, others⟩

/-- A thread that only changes what it knows. -/
theorem goto (h : Inv s) {t : Tid} {p : Pc α} (loc : Local s.ring s.hist p)
    (same : p.claim? = (s.pc t).claim?) : Inv (s.goto t p) := by
  have claims : ∀ u, ((s.goto t p).pc u).claim? = (s.pc u).claim? :=
    (Function.forall_update_iff s.pc fun u q => q.claim? = (s.pc u).claim?).mpr
      ⟨same, fun _ _ => rfl⟩
  refine { h with locals := local_update loc fun u _ => h.locals u, disjoint := ?_, cover := ?_ }
  · intro u v k l hk hl
    rw [claims] at hk hl
    exact h.disjoint u v k l hk hl
  · intro σ q h1 h2
    obtain ⟨u, k, hk, rest⟩ := h.cover σ q h1 h2
    exact ⟨u, k, (claims u).trans hk, rest⟩

/-- A head is moved by `n` positions that were free. -/
theorem claim (h : Inv s) {t : Tid} {c : Call α} {oldHead entries seen : Nat}
    (hp : s.pc t = .moveHead c oldHead entries seen)
    (cur : oldHead = (s.ring.ht c.side).head) :
    Inv
      { ring := s.ring.setHead c.side (oldHead + c.n)
        pc := Function.update s.pc t (.copy ⟨c, oldHead, entries, s.hist.claimed c.side⟩ 0)
        hist := s.hist.claim c } := by
  have loc := h.locals t
  rw [hp] at loc
  obtain ⟨-, -, pos, room⟩ := loc
  have room := room cur
  have pos_eq : oldHead = s.hist.claimed c.side := cur.trans (h.claimed _)
  have head : ∀ σ, ((s.ring.setHead c.side (oldHead + c.n)).ht σ).head =
      (s.ring.ht σ).head + if σ = c.side then c.n else 0 := by
    intro σ
    rw [setHead_head]
    split_ifs with e
    · subst e; rw [cur]
    · rfl
  have enq := fun (q : Nat) (v : α) => s.hist.claim_enq_mono c q (v := v)
  have noClaim : (s.pc t).claim? = none := by rw [hp]; rfl
  have below : ∀ u k, (s.pc u).claim? = some k → k.call.side = c.side →
      k.pos + k.call.n ≤ s.hist.claimed c.side := by
    intro u k hk side
    rw [← pos_eq, cur, ← side]
    exact (h.claimOk hk).below
  refine ⟨?_, ?_, ?_, ?_, ?_, ?_, ?_, ?_, ?_, ?_, ?_, ?_⟩
  · exact ⟨by simpa using h.sized.capacity_eq, by simpa using h.sized.shape⟩
  · intro σ
    rw [setHead_tail, head]
    exact (h.tail_le σ).trans (Nat.le_add_right _ _)
  · intro σ
    rw [head, limit_setHead]
    split_ifs with e
    · subst e; rw [← cur]; exact room
    · exact h.head_le σ
  · intro σ
    rw [head, History.claim_claimed, h.claimed]
  · refine local_update ⟨⟨pos_eq, pos, ?_, ?_⟩, pos, ?_, ?_⟩ fun u _ => ?_
    · rw [setHead_tail, ← h.claimed]; exact h.tail_le _
    · simp only [head, if_true, ← h.claimed]; exact le_rfl
    · exact fun i hi => absurd hi (Nat.not_lt_zero i)
    · intro i hi side
      cases hs : c.side with
      | prod => simpa [hs] using s.hist.claim_enq_new c hs hi
      | cons => exact absurd (side hs) (Nat.not_lt_zero i)
    · refine (h.locals u).mono (fun σ => ?_) (fun σ => by simp) (fun k hk => ?_)
        (fun k _ _ => by simp) (fun σ q hq => by simpa using hq) enq
      · rw [head]; exact Nat.le_add_right _ _
      · rw [setHead_tail]; exact (h.claimOk hk).above
  · intro u v k l hk hl side ne
    obtain ⟨rfl, mine⟩ | ⟨-, hk⟩ := claim_update hk
    · obtain ⟨rfl, -⟩ | ⟨-, hl⟩ := claim_update hl
      · exact absurd rfl ne
      · cases mine
        exact Or.inr (below v l hl side.symm)
    · obtain ⟨-, mine⟩ | ⟨-, hl⟩ := claim_update hl
      · cases mine
        exact Or.inl (below u k hk side)
      · exact h.disjoint u v k l hk hl side ne
  · intro σ p h1 h2
    rw [setHead_tail] at h1
    rw [head] at h2
    by_cases old : p < (s.ring.ht σ).head
    · obtain ⟨u, k, hk, rest⟩ := h.cover σ p h1 old
      have hu : u ≠ t := by rintro rfl; rw [noClaim] at hk; cases hk
      exact ⟨u, k, (congrArg Pc.claim? (Function.update_of_ne hu ..)).trans hk, rest⟩
    · have e : σ = c.side := by by_contra ne; rw [if_neg ne] at h2; omega
      subst e
      rw [if_pos rfl] at h2
      rw [h.claimed] at old h2
      exact ⟨t, _, congrArg Pc.claim? (Function.update_self t _ s.pc), rfl, not_lt.mp old, h2⟩
  · intro σ p hq
    rw [History.claim_copied] at hq
    rw [head]
    exact (h.copied_lt σ p hq).trans_le (Nat.le_add_right _ _)
  · intro σ p hq
    rw [setHead_tail] at hq
    rw [History.claim_copied]
    exact h.copied_of_lt σ p hq
  · intro p h1 h2
    rw [setHead_tail] at h1
    rw [History.claim_copied] at h2
    rw [setHead_storage, setHead_size]
    exact enq _ _ (h.live p h1 h2)
  · rw [History.claim_returned]; exact h.ordered
  · intro r hr
    rw [History.claim_returned] at hr
    rw [setHead_tail]
    exact ⟨(h.returned r hr).1, fun i hi => enq _ _ ((h.returned r hr).2 i hi)⟩

/-- One slot of a claim is copied. -/
theorem copy (h : Inv s) {t : Tid} {k : Claim α} {done : Nat} (hp : s.pc t = .copy k done)
    {e : Nat × Nat} (he : e = ((k.pos + done) % s.ring.size, done)) {p : Pc α}
    (next : ∀ f hist, ClaimOk (s.ring.setStorage f) (k.copied s.ring.storage e) →
      Filled hist (k.copied s.ring.storage e) (done + 1) → Local (s.ring.setStorage f) hist p)
    (claim : p.claim? = some (k.copied s.ring.storage e)) :
    Inv
      { ring := s.ring.setStorage (copyOne k.call.side e s.ring.storage k.call.table).1
        pc := Function.update s.pc t p
        hist := s.hist.copy k.call.side (k.pos + done) } := by
  subst he
  have loc := h.locals t
  rw [hp] at loc
  obtain ⟨ok, lt, -⟩ := loc
  have hk : (s.pc t).claim? = some k := by rw [hp]; rfl
  have below := ok.below
  have copied : ∀ σ q, q ∈ s.hist.copied σ →
      q ∈ (s.hist.copy k.call.side (k.pos + done)).copied σ :=
    fun σ q => s.hist.mem_copied_copy _ _ _
  -- the thread keeps its claim, up to the contents of its table
  have old : ∀ u l, (Function.update s.pc t p u).claim? = some l → ∃ l', (s.pc u).claim? = some l' ∧
      l'.pos = l.pos ∧ l'.call.n = l.call.n ∧ l'.call.side = l.call.side := by
    intro u l hl
    obtain ⟨rfl, mine⟩ | ⟨-, hl⟩ := claim_update hl
    · cases claim.symm.trans mine
      exact ⟨k, hk, rfl, rfl, rfl⟩
    · exact ⟨l, hl, rfl, rfl, rfl⟩
  refine ⟨?_, ?_, ?_, ?_, ?_, ?_, ?_, ?_, ?_, ?_, ?_, ?_⟩
  · exact ⟨by simpa using h.sized.capacity_eq, by simpa using h.sized.shape⟩
  · simpa using h.tail_le
  · simpa using h.head_le
  · simpa using h.claimed
  · refine local_update (next _ _ ⟨ok.head_eq, ok.pos_n, ?_, ?_⟩ (h.copy_filled hp)) fun u _ => ?_
    · simpa using ok.above
    · simpa using below
    · refine (h.locals u).mono (by simp) (by simp) (fun l hl => ?_) (by simp) copied (by simp)
      simpa using (h.claimOk hl).above
  · intro u v l m hl hm side ne
    obtain ⟨l', hl', l1, l2, l3⟩ := old u l hl
    obtain ⟨m', hm', m1, m2, m3⟩ := old v m hm
    have := h.disjoint u v l' m' hl' hm' (by rw [l3, m3, side]) ne
    omega
  · intro σ q h1 h2
    obtain ⟨u, l, hl, side, holds⟩ := h.cover σ q (by simpa using h1) (by simpa using h2)
    by_cases hu : u = t
    · subst hu
      cases hk.symm.trans hl
      exact ⟨u, k.copied s.ring.storage ((k.pos + done) % s.ring.size, done), by simpa using claim,
        side, holds⟩
    · exact ⟨u, l, by simpa [hu] using hl, side, holds⟩
  · intro σ q hq
    rw [History.copy_copied] at hq
    rw [setStorage_ht]
    split_ifs at hq with e
    · subst e
      rcases List.mem_cons.mp hq with rfl | hq
      · omega
      · exact h.copied_lt _ q hq
    · exact h.copied_lt σ q hq
  · intro σ q hq
    exact copied _ _ (h.copied_of_lt σ q (by simpa using hq))
  · intro q h1 h2
    rw [setStorage_ht] at h1
    rw [History.copy_enq, setStorage_storage, setStorage_size]
    exact h.copy_live hp h1 h2
  · simpa using h.ordered
  · simpa using h.returned

/-- A claim whose turn has come is published. -/
theorem storeTail (h : Inv s) {t : Tid} {k : Claim α} (hp : s.pc t = .storeTail k)
    (turn : (s.ring.ht k.call.side).tail = k.pos) :
    Inv
      { ring := s.ring.setTail k.call.side (k.oldHead + k.call.n)
        pc := Function.update s.pc t (.returned k.call k.call.n (k.entries - k.call.n))
        hist := s.hist.finish k } := by
  have loc := h.locals t
  rw [hp] at loc
  obtain ⟨ok, -, -⟩ := loc
  have hk : (s.pc t).claim? = some k := by rw [hp]; rfl
  rw [ok.head_eq]
  have grow := storeTail_grow turn
  have lim : ∀ σ, s.ring.limit σ ≤ (s.ring.setTail k.call.side (k.pos + k.call.n)).limit σ := by
    intro σ
    cases σ with
    | prod => simpa [limit] using grow .cons
    | cons => exact grow .prod
  have claims : ∀ u l, (Function.update s.pc t
      (.returned k.call k.call.n (k.entries - k.call.n)) u).claim? = some l →
      u ≠ t ∧ (s.pc u).claim? = some l := fun u l hl =>
    (claim_update hl).resolve_left fun returned => by cases returned.2
  refine ⟨?_, ?_, ?_, ?_, ?_, ?_, ?_, ?_, ?_, ?_, ?_, ?_⟩
  · exact ⟨by simpa using h.sized.capacity_eq, by simpa using h.sized.shape⟩
  · intro σ
    rw [setTail_head, setTail_tail]
    split_ifs with e
    · subst e; exact ok.below
    · exact h.tail_le σ
  · intro σ
    rw [setTail_head]
    exact (h.head_le σ).trans (lim σ)
  · simpa using h.claimed
  · refine local_update trivial fun u hu => ?_
    refine (h.locals u).mono (by simp) lim (fun l hl => ?_) (fun l hl multi => ?_) (by simp)
      (by simp)
    · rw [setTail_tail]
      split_ifs with e
      · exact h.storeTail_after hp turn hu hl e
      · exact (h.claimOk hl).above
    · rw [setTail_tail, if_neg]
      intro e
      have locu := h.locals u
      rw [hl] at locu
      have hlc : (s.pc u).claim? = some l := by rw [hl]; rfl
      have := h.storeTail_after hp turn hu hlc e
      have turn' := locu.2.2 multi
      have pos := ok.pos_n
      rw [e] at turn'
      omega
  · intro u v l m hl hm side ne
    exact h.disjoint u v l m (claims u l hl).2 (claims v m hm).2 side ne
  · intro σ q h1 h2
    rw [setTail_head] at h2
    obtain ⟨u, l, hl, side, holds⟩ := h.cover σ q ((grow σ).trans h1) h2
    have hu : u ≠ t := by
      rintro rfl
      cases hk.symm.trans hl
      rw [setTail_tail, if_pos side.symm] at h1
      exact absurd holds.2 (by omega)
    exact ⟨u, l, by simpa [hu] using hl, side, holds⟩
  · simpa using h.copied_lt
  · intro σ q hq
    rw [History.finish_copied]
    exact h.storeTail_copied hp turn hq
  · intro q h1 h2
    rw [History.finish_copied] at h2
    rw [History.finish_enq, setTail_storage, setTail_size]
    exact h.live q ((grow .cons).trans h1) h2
  · cases hs : k.call.side with
    | prod => simpa [History.finish, hs] using h.ordered
    | cons =>
      simp only [History.finish, hs, List.pairwise_cons]
      refine ⟨fun b hb => ?_, h.ordered⟩
      rw [hs] at turn
      exact (h.returned b hb).1.trans turn.le
  · intro r hr
    rw [History.finish_enq]
    exact h.storeTail_returned hp turn hr

/-- The next access of a thread. -/
theorem advance {s' : State Tid α} (h : Inv s) {t : Tid} (turn : InTurn s t) (timely : Timely s t)
    (hs : s.advance t = some s') : Inv s' := by
  have loc := h.locals t
  cases hp : s.pc t with
  | idle => simp [State.advance, hp] at hs
  | returned c m n => simp [State.advance, hp] at hs
  | loadHead c =>
    simp only [State.advance, hp, Option.some.injEq] at hs
    subst hs
    exact h.goto ⟨h.claimed _, le_rfl⟩ (by rw [hp]; rfl)
  | loadTail c oldHead seen =>
    rw [hp] at loc
    simp only [State.advance, hp] at hs
    split_ifs at hs with none <;> cases hs
    · exact h.goto trivial (by rw [hp]; rfl)
    · rw [not_or, not_lt] at none
      refine h.goto ⟨loc.1, loc.2, Nat.pos_of_ne_zero none.2, ?_⟩ (by rw [hp]; rfl)
      intro cur
      have room := none.1
      rw [cur, h.entries_eq] at room
      have := h.head_le c.side
      omega
  | moveHead c oldHead entries seen =>
    rw [hp] at loc
    obtain ⟨l1, l2, -, -⟩ := loc
    simp only [State.advance, hp] at hs
    split_ifs at hs with take <;> cases hs
    · have cur : oldHead = (s.ring.ht c.side).head := by
        cases single : c.single with
        | true => exact turn.head c oldHead entries seen hp single
        | false =>
          have near := timely c oldHead entries seen hp single
          have same := take.resolve_left (by simp [single])
          rw [h.claimed] at same l2 ⊢
          exact eq_of_u32_eq l2 (by omega) same.symm
      exact h.claim hp cur
    · exact h.goto ⟨h.claimed _, le_rfl⟩ (by rw [hp]; rfl)
  | copy k done =>
    rw [hp] at loc
    obtain ⟨ok, lt, -⟩ := loc
    have hk : (s.pc t).claim? = some k := by rw [hp]; rfl
    obtain ⟨pos, slots⟩ := h.schedule_eq hk
    simp only [State.advance, hp, slots, List.getElem?_map, List.getElem?_range lt, Option.map_some,
      Option.some.injEq, List.length_map, List.length_range] at hs
    subst hs
    refine h.copy hp rfl (fun f hist ok' filled => ?_) ?_
    · split_ifs with more
      · exact ⟨ok', more, filled⟩
      · have last : done + 1 = k.call.n := by omega
        rw [last] at filled
        unfold Claim.updateTail
        split_ifs with single
        · exact ⟨ok', filled, fun multi => by simp [single] at multi⟩
        · exact ⟨ok', filled⟩
    · unfold Claim.updateTail
      split_ifs <;> rfl
  | waitTail k =>
    rw [hp] at loc
    have hk : (s.pc t).claim? = some k := by rw [hp]; rfl
    simp only [State.advance, hp] at hs
    split_ifs at hs with wait <;> cases hs
    · exact h.goto loc (by rw [hp])
    · refine h.goto ⟨loc.1, loc.2, fun _ => ?_⟩ (by rw [hp]; rfl)
      have turn := not_not.mp wait
      rw [loc.1.head_eq] at turn
      exact eq_of_u32_eq loc.1.above (h.near hk) turn
  | storeTail k =>
    rw [hp] at loc
    simp only [State.advance, hp, Option.some.injEq] at hs
    subst hs
    refine h.storeTail hp ?_
    cases single : k.call.single with
    | true => exact (turn.tail k hp single).trans loc.1.head_eq
    | false => exact loc.2.2 single

/-- Every step keeps the invariant. -/
theorem step {s' : State Tid α} (h : Inv s) {m : Tid × Move α} (turn : InTurn s m.1)
    (timely : Timely s m.1) (hs : s.step m = some s') : Inv s' := by
  obtain ⟨t, c | _⟩ := m
  · simp only [State.step, State.enter] at hs
    split at hs <;> cases hs <;> exact h.goto trivial (by simp [*, Pc.claim?])
  · exact h.advance turn timely hs

end Inv

/-- The ring that `Init` prepares satisfies the invariant. -/
theorem inv_fresh (zero : α) (objectNum : Nat) (isSp isSc : Bool) :
    Inv (fresh Tid zero objectNum isSp isSc) := by
  have tail : ∀ σ, ((init zero objectNum isSp isSc).ht σ).tail = 0 := by
    intro σ; cases σ <;> rfl
  have head : ∀ σ, ((init zero objectNum isSp isSc).ht σ).head = 0 := by
    intro σ; cases σ <;> rfl
  have copied : ∀ σ, (({} : History α)).copied σ = [] := by intro σ; cases σ <;> rfl
  refine ⟨init_wellSized .., ?_, ?_, ?_, ?_, ?_, ?_, ?_, ?_, ?_, ?_, ?_⟩
  · intro σ; simp [fresh, tail]
  · intro σ; simp [fresh, head]
  · intro σ; cases σ <;> rfl
  · intro t; trivial
  · intro t u k l hk; cases hk
  · intro σ p h1 h2; simp [fresh, head] at h2
  · intro σ p hp; simp [fresh, copied] at hp
  · intro σ p hp; simp [fresh, tail] at hp
  · intro p _ hp; simp [fresh, copied] at hp
  · exact List.Pairwise.nil
  · intro r hr; simp [fresh] at hr

end Fuxi.Base.RteRing
