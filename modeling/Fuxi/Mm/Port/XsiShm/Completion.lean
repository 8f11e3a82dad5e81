import Fuxi.Lib.Holdings
import Fuxi.Lib.Progress
import Fuxi.Mm.Port.XsiShm

/-!
# Every process gets ready

A process that attaches to a segment waits until the process that has created it has laid it out.
As long as nobody shuts down, that process is on its way or has arrived, so that all processes
that have begun `Init` get ready.
-/

namespace Fuxi.Mm.Port.XsiShm

open Lib

variable {Tid Key : Type*} {ftok : Int → Key} {s s' : State Tid Key} {t : Tid}

/-- The process is in `Init` or in `Shutdown`. -/
def Pc.running : Pc → Bool
  | .idle | .ready _ _ => false
  | _ => true

/-- The steps that are left. -/
def Pc.rank : Pc → ℕ
  | .idle | .ready _ _ => 0
  | .layoutInit _ _ | .waitUntilReady _ _ | .remove _ _ => 1
  | .attach _ _ _ | .lookupRemove _ => 2
  | .openOnly _ => 3
  | .create _ => 4

/-- The domain that the process attaches to, is attached to or leaves. -/
def Pc.domain : Pc → Option Int
  | .idle => none
  | .create d | .openOnly d | .attach d _ _ | .layoutInit d _ | .waitUntilReady d _ | .ready d _
  | .lookupRemove d | .remove d _ => some d

/-- The process has created the segment and has not laid it out. -/
def Pc.laysOut (id : ℕ) : Pc → Prop
  | .attach _ id' true | .layoutInit _ id' => id' = id
  | _ => False

/-- Every segment is laid out, or its creator is on its way. -/
def Served (s : State Tid Key) : Prop :=
  ∀ id < s.shm.next, s.inited id = true ∨ ∃ t, (s.pc t).laysOut id

/-- Whoever is ready uses a segment that is laid out. -/
def LaidOut (s : State Tid Key) : Prop :=
  ∀ t d id, s.pc t = .ready d id → s.inited id = true

/-- Nobody shuts down, and whoever opens a segment finds one. -/
def Staying (ftok : Int → Key) (s : State Tid Key) : Prop :=
  ∀ t, (∀ d, s.pc t ≠ .lookupRemove d) ∧ (∀ d id, s.pc t ≠ .remove d id) ∧
    ∀ d, s.pc t = .openOnly d → s.shm.lookup (ftok d) ≠ none

/-- Only these processes are running. -/
def Within (S : Finset Tid) (s : State Tid Key) : Prop := ∀ t, (s.pc t).running = true → t ∈ S

/-- No process is running. -/
def Quiet (s : State Tid Key) : Prop := ∀ t, (s.pc t).running = false

/-- What a step of a process can do that does not rest: where it goes, and the kernel and the flags
after it. -/
inductive Goes [DecidableEq Key] (ftok : Int → Key) (s : State Tid Key) :
    Pc → Pc → SharedMemory Key → (ℕ → Bool) → Prop
  | create (d : Int) {m : SharedMemory Key} {id : ℕ}
      (made : s.shm.create (ftok d) = some (m, id)) :
      Goes ftok s (.create d) (.attach d id true) m s.inited
  | eexist (d : Int) (taken : s.shm.create (ftok d) = none) :
      Goes ftok s (.create d) (.openOnly d) s.shm s.inited
  | openOnly (d : Int) {id : ℕ} (found : s.shm.lookup (ftok d) = some id) :
      Goes ftok s (.openOnly d) (.attach d id false) s.shm s.inited
  | attach (d : Int) {id : ℕ} (isCreated : Bool) {m : SharedMemory Key} {p : Pc}
      (attached : s.shm.attach id = some m)
      (next : p = if isCreated then .layoutInit d id else .waitUntilReady d id) :
      Goes ftok s (.attach d id isCreated) p m s.inited
  | layoutInit (d : Int) (id : ℕ) :
      Goes ftok s (.layoutInit d id) (.ready d id) s.shm (Function.update s.inited id true)
  | waitUntilReady (d : Int) {id : ℕ} (laidOut : s.inited id = true) :
      Goes ftok s (.waitUntilReady d id) (.ready d id) s.shm s.inited
  | lookupRemove (d : Int) (p : Pc) (next : p = .idle ∨ ∃ id, p = .remove d id) :
      Goes ftok s (.lookupRemove d) p s.shm s.inited
  | remove (d : Int) (id : ℕ) : Goes ftok s (.remove d id) .idle (s.shm.remove id) s.inited

section Steps

variable [DecidableEq Tid] [DecidableEq Key] {p : Pc} {m : SharedMemory Key} {inited : ℕ → Bool}
  {S : Finset Tid}

theorem advance_goes (hs : s.advance ftok t = some s') :
    s' = s ∨ ∃ p m inited, Goes ftok s (s.pc t) p m inited ∧
      s' = ⟨m, inited, Function.update s.pc t p⟩ := by
  cases hp : s.pc t with
  | idle | ready => simp [State.advance, hp] at hs
  | create d =>
    simp only [State.advance, hp] at hs
    cases made : s.shm.create (ftok d) with
    | none =>
      simp only [made, Option.some.injEq] at hs
      subst hs
      exact Or.inr ⟨_, _, _, .eexist d made, rfl⟩
    | some created =>
      simp only [made, Option.some.injEq] at hs
      subst hs
      exact Or.inr ⟨_, _, _, .create d made, rfl⟩
  | openOnly d =>
    simp only [State.advance, hp] at hs
    obtain ⟨id, found, rfl⟩ := Option.map_eq_some_iff.mp hs
    exact Or.inr ⟨_, _, _, .openOnly d found, rfl⟩
  | attach d id isCreated =>
    simp only [State.advance, hp] at hs
    obtain ⟨m, attached, rfl⟩ := Option.map_eq_some_iff.mp hs
    exact Or.inr ⟨_, _, _, .attach d isCreated attached rfl, rfl⟩
  | layoutInit d id =>
    simp only [State.advance, hp, Option.some.injEq] at hs
    subst hs
    exact Or.inr ⟨_, _, _, .layoutInit d id, rfl⟩
  | waitUntilReady d id =>
    simp only [State.advance, hp, Option.some.injEq] at hs
    split_ifs at hs with laidOut
    · subst hs
      exact Or.inr ⟨_, _, _, .waitUntilReady d laidOut, rfl⟩
    · exact Or.inl hs.symm
  | lookupRemove d =>
    simp only [State.advance, hp] at hs
    cases found : s.shm.lookup (ftok d) with
    | none =>
      simp only [found, Option.some.injEq] at hs
      subst hs
      exact Or.inr ⟨_, _, _, .lookupRemove d _ (Or.inl rfl), rfl⟩
    | some id =>
      simp only [found, Option.some.injEq] at hs
      subst hs
      exact Or.inr ⟨_, _, _, .lookupRemove d _ (Or.inr ⟨id, rfl⟩), rfl⟩
  | remove d id =>
    simp only [State.advance, hp, Option.some.injEq] at hs
    subst hs
    exact Or.inr ⟨_, _, _, .remove d id, rfl⟩

omit [DecidableEq Tid] in
/-- The process is nearer to the end. -/
theorem Goes.rank_lt {q : Pc} (h : Goes ftok s q p m inited) : p.rank < q.rank := by
  cases h with
  | attach d isCreated attached next =>
    subst next
    cases isCreated <;> simp [Pc.rank]
  | lookupRemove d p next =>
    obtain rfl | ⟨id, rfl⟩ := next
    · simp [Pc.rank]
    · simp [Pc.rank]
  | _ => simp [Pc.rank]

omit [DecidableEq Tid] in
theorem Goes.running {q : Pc} (h : Goes ftok s q p m inited) : q.running = true := by
  cases h <;> rfl

omit [DecidableEq Tid] in
/-- A segment that is laid out stays so. -/
theorem Goes.inited_mono {q : Pc} (h : Goes ftok s q p m inited) {id : ℕ}
    (laidOut : s.inited id = true) : inited id = true := by
  cases h with
  | layoutInit d id' =>
    by_cases e : id = id'
    · subst e
      exact Function.update_self ..
    · rwa [Function.update_of_ne e]
  | _ => exact laidOut

/-! ## What the steps keep -/

/-- The creator of a segment stays on its way until it has laid it out. -/
theorem Goes.served (h : Goes ftok s (s.pc t) p m inited) (served : Served s) :
    Served ⟨m, inited, Function.update s.pc t p⟩ := by
  have others : ∀ {id u}, u ≠ t → (s.pc u).laysOut id →
      ∃ v, (Function.update s.pc t p v).laysOut id := fun ne lays =>
    ⟨_, by rwa [Function.update_of_ne ne]⟩
  -- a creator that has moved is still on its way, or has laid its segment out
  have stays : ∀ {id}, (s.pc t).laysOut id → inited id = true ∨ p.laysOut id := by
    intro id lays
    generalize s.pc t = q at h lays
    cases h with
    | attach d isCreated attached next =>
      subst next
      cases isCreated
      · exact lays.elim
      · exact Or.inr lays
    | layoutInit d id' =>
      obtain rfl : id' = id := lays
      exact Or.inl (Function.update_self ..)
    | _ => exact lays.elim
  have old : ∀ id < s.shm.next, inited id = true ∨
      ∃ u, (Function.update s.pc t p u).laysOut id := by
    intro id lt
    obtain laidOut | ⟨u, lays⟩ := served id lt
    · exact Or.inl (h.inited_mono laidOut)
    · by_cases e : u = t
      · subst e
        exact (stays lays).imp_right fun lays => ⟨u, by rwa [Function.update_self]⟩
      · exact Or.inr (others e lays)
  intro id lt
  obtain lt | ⟨d, made⟩ : id < s.shm.next ∨ ∃ d, p = .attach d id true := by
    generalize s.pc t = q at h
    cases h with
    | create d made =>
      obtain ⟨-, rfl, rfl⟩ := SharedMemory.create_eq made
      obtain lt | eq := Nat.lt_succ_iff_lt_or_eq.mp lt
      · exact Or.inl lt
      · exact Or.inr ⟨d, by rw [eq]⟩
    | attach d isCreated attached =>
      rw [SharedMemory.attach_eq attached] at lt
      exact Or.inl lt
    | _ => exact Or.inl lt
  · exact old id lt
  · refine Or.inr ⟨t, ?_⟩
    simp only [Function.update_self, made]
    rfl

theorem Goes.laidOut (h : Goes ftok s (s.pc t) p m inited) (laidOut : LaidOut s) :
    LaidOut ⟨m, inited, Function.update s.pc t p⟩ := by
  intro u d id ready
  by_cases e : u = t
  · subst e
    simp only [Function.update_self] at ready
    subst ready
    generalize s.pc u = q at h
    cases h with
    | layoutInit => exact Function.update_self ..
    | waitUntilReady d laidOut => exact laidOut
    | attach d isCreated attached next => cases isCreated <;> cases next
    | lookupRemove d p next =>
      obtain next | ⟨id, next⟩ := next
      · cases next
      · cases next
  · simp only [Function.update_of_ne e] at ready
    exact h.inited_mono (laidOut u d id ready)

theorem Goes.staying (h : Goes ftok s (s.pc t) p m inited) (staying : Staying ftok s) :
    Staying ftok ⟨m, inited, Function.update s.pc t p⟩ := by
  obtain ⟨stays, keeps, opens⟩ := staying t
  -- the segments keep their names
  have named : ∀ k, s.shm.lookup k ≠ none → m.lookup k ≠ none := by
    intro k found
    generalize s.pc t = q at h keeps
    cases h with
    | create d made =>
      obtain ⟨free, -, rfl⟩ := SharedMemory.create_eq made
      have ne : k ≠ ftok d := by
        rintro rfl
        exact found free
      simpa [SharedMemory.lookup, ne] using found
    | attach d isCreated attached =>
      rw [SharedMemory.attach_eq attached]
      exact found
    | remove d id => exact absurd rfl (keeps d id)
    | _ => exact found
  intro u
  by_cases e : u = t
  · subst e
    simp only [Function.update_self]
    generalize s.pc u = q at h stays keeps
    cases h with
    | eexist d taken =>
      refine ⟨nofun, nofun, fun d' same => ?_⟩
      cases same
      intro free
      simp [SharedMemory.create, show s.shm.named (ftok d) = none from free] at taken
    | attach d isCreated attached next =>
      subst next
      cases isCreated
      · exact ⟨nofun, nofun, nofun⟩
      · exact ⟨nofun, nofun, nofun⟩
    | lookupRemove d => exact absurd rfl (stays d)
    | _ => exact ⟨nofun, nofun, nofun⟩
  · simp only [Function.update_of_ne e]
    obtain ⟨stays, keeps, opens⟩ := staying u
    exact ⟨stays, keeps, fun d at_ => named _ (opens d at_)⟩

/-- A process that waits for nothing goes on. -/
theorem Inv.goes (h : Inv ftok s) (staying : Staying ftok s) (running : (s.pc t).running = true) :
    (∃ s', s.advance ftok t = some s' ∧ s' ≠ s) ∨
      ∃ d id, s.pc t = .waitUntilReady d id ∧ s.inited id = false := by
  have other : ∀ {m inited p}, p ≠ s.pc t →
      (⟨m, inited, Function.update s.pc t p⟩ : State Tid Key) ≠ s := by
    intro m inited p ne same
    have := congrFun (congrArg State.pc same) t
    simp only [Function.update_self] at this
    exact ne this
  obtain ⟨stays, keeps, opens⟩ := staying t
  cases hp : s.pc t with
  | idle | ready => simp [hp, Pc.running] at running
  | create d =>
    left
    simp only [State.advance, hp]
    cases s.shm.create (ftok d) with
    | none => exact ⟨_, rfl, other (by simp [hp])⟩
    | some made => exact ⟨_, rfl, other (by simp [hp])⟩
  | openOnly d =>
    obtain ⟨id, found⟩ := Option.ne_none_iff_exists'.mp (opens d hp)
    left
    simp only [State.advance, hp, found]
    exact ⟨_, rfl, other (by simp [hp])⟩
  | attach d id isCreated =>
    have named := h.current t (ftok d) id ⟨d, rfl, by rw [hp]; rfl⟩
    left
    simp only [State.advance, hp, SharedMemory.attach, h.wf.present named, if_true]
    exact ⟨_, rfl, other (by cases isCreated <;> simp [hp])⟩
  | layoutInit d id =>
    left
    simp only [State.advance, hp]
    exact ⟨_, rfl, other (by simp [hp])⟩
  | waitUntilReady d id =>
    cases laidOut : s.inited id with
    | false => exact Or.inr ⟨d, id, rfl, laidOut⟩
    | true =>
      left
      simp only [State.advance, hp, laidOut, if_true]
      exact ⟨_, rfl, other (by simp [hp])⟩
  | lookupRemove d => exact absurd hp (stays d)
  | remove d id => exact absurd hp (keeps d id)

/-- Where a process is running, one can go on: it or the creator that it waits for. -/
theorem Inv.help (h : Inv ftok s) (served : Served s) (staying : Staying ftok s)
    (running : (s.pc t).running = true) :
    ∃ u, (s.pc u).running = true ∧ ∃ s', s.advance ftok u = some s' ∧ s' ≠ s := by
  obtain goes | ⟨d, id, waits, bare⟩ := h.goes staying running
  · exact ⟨t, running, goes⟩
  · have named := h.current t (ftok d) id ⟨d, rfl, by rw [waits]; rfl⟩
    obtain laidOut | ⟨u, lays⟩ := served id (h.wf.created _ _ named)
    · rw [bare] at laidOut
      cases laidOut
    · have busy : (s.pc u).running = true := by
        cases hu : s.pc u <;> rw [hu] at lays <;> first | rfl | exact lays.elim
      obtain goes | ⟨d', id', waits', -⟩ := h.goes staying busy
      · exact ⟨u, busy, goes⟩
      · rw [waits'] at lays
        exact lays.elim

/-- Who is not running and is not idle has got ready. -/
theorem Pc.ready_of_domain {d : Int} (domain : p.domain = some d) (rests : p.running = false) :
    ∃ id, p = .ready d id := by
  cases p with
  | ready d' id =>
    obtain rfl : d' = d := by simpa [Pc.domain] using domain
    exact ⟨id, rfl⟩
  | idle => cases domain
  | _ => cases rests

omit [DecidableEq Tid] in
/-- A process that does not shut down stays with its domain. -/
theorem Goes.domain {q : Pc} (h : Goes ftok s q p m inited) (stays : ∀ d, q ≠ .lookupRemove d)
    (keeps : ∀ d id, q ≠ .remove d id) : p.domain = q.domain := by
  cases h with
  | attach d isCreated attached next =>
    subst next
    cases isCreated
    · rfl
    · rfl
  | lookupRemove d => exact absurd rfl (stays d)
  | remove d id => exact absurd rfl (keeps d id)
  | _ => rfl

/-! ## Runs -/

/-- A process that was not running before has called. -/
theorem Within.step (h : Within S s) {i : Tid × Move} (hs : s.step ftok i = some s') :
    Within (insert i.1 S) s' := by
  obtain ⟨t, mv⟩ := i
  obtain ⟨p, pc⟩ : ∃ p, s'.pc = Function.update s.pc t p := by
    cases mv with
    | init d =>
      cases hp : s.pc t <;> simp only [State.step, hp] at hs <;> cases hs
      exact ⟨_, rfl⟩
    | shutdown =>
      cases hp : s.pc t <;> simp only [State.step, hp] at hs <;> cases hs
      exact ⟨_, rfl⟩
    | step =>
      obtain rfl | ⟨p, m, inited, -, rfl⟩ := advance_goes hs
      · exact ⟨s'.pc t, (Function.update_eq_self t s'.pc).symm⟩
      · exact ⟨p, rfl⟩
  intro u running
  by_cases e : u = t
  · exact e ▸ Finset.mem_insert_self ..
  · rw [pc, Function.update_of_ne e] at running
    exact Finset.mem_insert_of_mem (h u running)

/-- A call begins `Init` or `Shutdown` and leaves the segments as they are. -/
theorem State.step_call {i : Tid × Move} (hs : s.step ftok i = some s') :
    s.advance ftok i.1 = some s' ∨
      (s'.shm.next = s.shm.next ∧ s'.inited = s.inited ∧ (s.pc i.1).running = false ∧
        ∃ p, s'.pc = Function.update s.pc i.1 p ∧ p.running = true) := by
  obtain ⟨t, mv⟩ := i
  cases mv with
  | init d =>
    right
    cases hp : s.pc t <;> simp only [State.step, hp] at hs <;> cases hs
    exact ⟨rfl, rfl, rfl, _, rfl, rfl⟩
  | shutdown =>
    right
    cases hp : s.pc t <;> simp only [State.step, hp] at hs <;> cases hs
    exact ⟨rfl, rfl, rfl, _, rfl, rfl⟩
  | step => exact Or.inl hs

theorem Served.step (h : Served s) {i : Tid × Move} (hs : s.step ftok i = some s') :
    Served s' := by
  obtain hs | ⟨next, inited, rests, p, pc, -⟩ := State.step_call hs
  · obtain rfl | ⟨p, m, inited, goes, rfl⟩ := advance_goes hs
    · exact h
    · exact goes.served h
  · intro id lt
    rw [next] at lt
    refine (h id lt).imp (fun laidOut => by rw [inited, laidOut]) ?_
    rintro ⟨u, lays⟩
    have ne : u ≠ i.1 := by
      rintro rfl
      cases hu : s.pc i.1 <;> rw [hu] at lays rests <;> first | exact lays.elim | cases rests
    exact ⟨u, by rwa [pc, Function.update_of_ne ne]⟩

theorem LaidOut.step (h : LaidOut s) {i : Tid × Move} (hs : s.step ftok i = some s') :
    LaidOut s' := by
  obtain hs | ⟨-, inited, -, p, pc, runs⟩ := State.step_call hs
  · obtain rfl | ⟨p, m, inited, goes, rfl⟩ := advance_goes hs
    · exact h
    · exact goes.laidOut h
  · intro u d id ready
    rw [pc] at ready
    rw [inited]
    by_cases e : u = i.1
    · subst e
      rw [Function.update_self] at ready
      subst ready
      cases runs
    · rw [Function.update_of_ne e] at ready
      exact h u d id ready

/-- What holds of every state that is reached. -/
theorem init_of_reach (h : (machine Tid ftok).Reach removesUnused s) :
    Inv ftok s ∧ Served s ∧ LaidOut s ∧ ∃ S : Finset Tid, Within S s := by
  refine h.inv (P := fun s => Inv ftok s ∧ Served s ∧ LaidOut s ∧ ∃ S : Finset Tid, Within S s)
    ?_ ?_
  · rintro s rfl
    exact ⟨Inv.start ftok, fun _ lt => absurd lt (Nat.not_lt_zero _), fun _ _ _ => nofun, ∅,
      fun _ => nofun⟩
  · rintro s i s' ⟨inv, served, laidOut, S, within⟩ hs unused
    exact ⟨inv.step unused hs, served.step hs, laidOut.step hs, _, within.step hs⟩

/-- A turn rests or brings a process nearer to the end. -/
theorem Within.lower (h : Within S s) (hs : s.advance ftok t = some s') :
    s' = s ∨ total S Pc.rank s'.pc < total S Pc.rank s.pc := by
  refine (advance_goes hs).imp_right ?_
  rintro ⟨p, m, inited, goes, rfl⟩
  have worth : total S Pc.rank (Function.update s.pc t p) + (s.pc t).rank =
      total S Pc.rank s.pc + p.rank := total_update (h t goes.running) p
  have nearer := goes.rank_lt
  show total S Pc.rank (Function.update s.pc t p) < total S Pc.rank s.pc
  omega

end Steps

/-- From every state that is reached, as long as nobody shuts down and every process gets its
turn again and again, all processes that have begun `Init` of a domain get ready with one segment,
which is laid out. -/
theorem initCompletes [DecidableEq Tid] [DecidableEq Key] (ftok : Int → Key) {s : State Tid Key}
    (h : (machine Tid ftok).Reach removesUnused s) (staying : Staying ftok s) {turn : ℕ → Tid}
    (fair : FairFor (fun t => (s.pc t).running = true) turn) :
    ∃ n, ∃ segment : Int → ℕ, ∀ t d, (s.pc t).domain = some d →
      (play (State.advance ftok) s turn n).pc t = .ready d (segment d) ∧
        (play (State.advance ftok) s turn n).inited (segment d) = true := by
  obtain ⟨inv, served, laidOut, S, within⟩ := init_of_reach h
  let good (s' : State Tid Key) : Prop := Inv ftok s' ∧ Served s' ∧ LaidOut s' ∧
    Staying ftok s' ∧ Within S s' ∧ (∀ t d, (s.pc t).domain = some d → (s'.pc t).domain = some d) ∧
    ∀ t, (s'.pc t).running = true → (s.pc t).running = true
  have start : good s :=
    ⟨inv, served, laidOut, staying, within, fun _ _ domain => domain, fun _ running => running⟩
  have keep : ∀ s₁ t s₂, good s₁ → True → s₁.advance ftok t = some s₂ → good s₂ := by
    rintro s₁ t s₂ ⟨inv, served, laidOut, staying, within, domain, old⟩ - hs
    obtain rfl | ⟨p, m, inited, goes, rfl⟩ := advance_goes hs
    · exact ⟨inv, served, laidOut, staying, within, domain, old⟩
    · have stays := staying t
      have same : p.domain = (s₁.pc t).domain := goes.domain stays.1 stays.2.1
      refine ⟨inv.step (m := (t, .step)) (fun d id at_ => absurd at_ (stays.2.1 d id)) hs,
        goes.served served, goes.laidOut laidOut, goes.staying staying, fun u running => ?_,
        fun u d hu => ?_, fun u running => ?_⟩
      · by_cases e : u = t
        · exact within u (e ▸ goes.running)
        · simp only [Function.update_of_ne e] at running
          exact within u running
      · by_cases e : u = t
        · subst e
          simp only [Function.update_self, same]
          exact domain u d hu
        · simp only [Function.update_of_ne e]
          exact domain u d hu
      · by_cases e : u = t
        · exact old u (e ▸ goes.running)
        · simp only [Function.update_of_ne e] at running
          exact old u running
  have invs : ∀ n, good (play (State.advance ftok) s turn n) :=
    play_inv start keep fun _ => trivial
  obtain ⟨n, rest⟩ : ∃ n, Quiet (play (State.advance ftok) s turn n) :=
    eventually_of_fair (μ := fun s' => total S Pc.rank s'.pc) start keep
      (fun s₁ t s₂ hg _ hs => hg.2.2.2.2.1.lower hs)
      (fun s₁ hg far => by
        obtain ⟨t, running⟩ := not_forall.mp far
        obtain ⟨u, busy, moves⟩ :=
          hg.1.help hg.2.1 hg.2.2.2.1 (Bool.eq_true_of_not_eq_false running)
        exact ⟨u, hg.2.2.2.2.2.2 u busy, moves⟩)
      fair fun _ => trivial
  obtain ⟨inv, -, laidOut, -, -, domain, -⟩ := invs n
  have ready : ∀ t d, (s.pc t).domain = some d →
      ∃ id, (play (State.advance ftok) s turn n).pc t = .ready d id :=
    fun t d hd => Pc.ready_of_domain (domain t d hd) (rest t)
  -- the members of a domain agree on its segment
  have one : ∀ d, ∃ id, ∀ t, (s.pc t).domain = some d →
      (play (State.advance ftok) s turn n).pc t = .ready d id := by
    intro d
    by_cases member : ∃ t, (s.pc t).domain = some d
    · obtain ⟨t, hd⟩ := member
      obtain ⟨id, ht⟩ := ready t d hd
      refine ⟨id, fun u hu => ?_⟩
      obtain ⟨id', hu⟩ := ready u d hu
      rw [hu, inv.agree u t d id' id hu ht]
    · exact ⟨0, fun t hd => absurd ⟨t, hd⟩ member⟩
  choose segment segments using one
  exact ⟨n, segment, fun t d hd =>
    ⟨segments d t hd, laidOut t d _ (segments d t hd)⟩⟩

/-- Two processes begin `Init` of one domain: the first has created the segment, and the second has
been told that it exists. -/
def newcomers : State ℕ Int :=
  { (((({} : State ℕ Int).goto 0 (.create 5)).goto 0 (.attach 5 0 true)).goto 1
      (.create 5)).goto 1 (.openOnly 5) with
    shm := { next := 1, named := Function.update (fun _ => none) 5 (some 0) } }

theorem newcomers_reach : (machine ℕ id).Reach removesUnused newcomers := by
  have unused : ∀ s : State ℕ Int, ∀ t, (∀ d id, s.pc t ≠ .remove d id) → Unused s t :=
    fun s t other d id at_ => absurd at_ (other d id)
  refine .step (i := (1, .step)) (.step (i := (1, .init 5)) (.step (i := (0, .step))
    (.step (i := (0, .init 5)) (.start rfl) rfl ?_) rfl ?_) rfl ?_) rfl ?_
  all_goals exact unused _ _ nofun

theorem newcomers_pc (t : ℕ) : newcomers.pc t =
    if t = 0 then .attach 5 0 true else if t = 1 then .openOnly 5 else .idle := by
  by_cases first : t = 0
  · subst first
    rfl
  · by_cases second : t = 1
    · subst second
      rfl
    · simp [newcomers, State.goto, first, second]

/-- They take turns, and the second waits until the first has laid the segment out. -/
theorem initCompletes_newcomers :
    ∃ n, ∃ segment : Int → ℕ, ∀ t d, (newcomers.pc t).domain = some d →
      (play (State.advance id) newcomers (· % 2) n).pc t = .ready d (segment d) ∧
        (play (State.advance id) newcomers (· % 2) n).inited (segment d) = true := by
  refine initCompletes id newcomers_reach (fun t => ?_) fun t running n => ?_
  · rw [newcomers_pc]
    split_ifs
    · exact ⟨nofun, nofun, nofun⟩
    · refine ⟨nofun, nofun, fun d at_ => ?_⟩
      obtain rfl : 5 = d := Pc.openOnly.inj at_
      exact fun free => Option.some_ne_none 0 free
    · exact ⟨nofun, nofun, nofun⟩
  · have lt : t < 2 := by
      simp only [newcomers_pc] at running
      split_ifs at running
      · omega
      · omega
      · cases running
    exact ⟨2 * n + t, by omega, show (2 * n + t) % 2 = t by omega⟩

end Fuxi.Mm.Port.XsiShm
