import Fuxi.Base.IdAllocator
import Fuxi.Lib.Ownership

/-!
# Every value of an `IdAllocator` sits in one place

A value is held by a thread, on the free list, or on its way inside a call. The entry of a
value in `_free_next_value` is written only while the value is on its way, so that an entry
that `allocate` has read is still right as long as nothing was pushed and the value is still
on top; the version tells whether something was pushed.
-/

namespace Fuxi.Base.IdAllocator

open Lib

variable {Tid : Type*} {T : IdType}

theorem IdType.two_lt_size : 2 < T.size := by cases T <;> decide

/-- The value that a call carries. -/
def Pc.carries : Pc → Option Nat
  | .storeActive id | .ensure id | .loadTop id | .storeNext id _ | .push id _ => some id.value
  | .idle | .loadHead | .loadNext _ | .pop _ _ | .fetchAdd => none

/-- The head that `allocate` has read. -/
def Pc.read? : Pc → Option VersionedValue
  | .loadNext head | .pop head _ => some head
  | _ => none

/-- The places of values. -/
inductive Place (Tid : Type*)
  | held (t : Tid)
  | free
  | inTransit (t : Tid)

/-- The value `v` sits in a place. -/
def State.At (s : State Tid) : Place Tid → Nat → Prop
  | .held t, v => v ∈ (s.held t).map VersionedValue.value
  | .free, v => v ∈ s.free
  | .inTransit t, v => (s.pc t).carries = some v

/-- What a thread knows: the head that it has read is not the end of the list, and if nothing
was pushed and the value is still on top, the entry that it has read is right. A `deallocate`
has stored its entry. -/
structure Knows (T : IdType) (s : State Tid) (t : Tid) : Prop where
  read : ∀ head, (s.pc t).read? = some head → head.value ≠ freeListTail T ∧
    s.readAt t ≤ s.pushes ∧ head.version = s.readAt t % T.size ∧
      (s.readAt t = s.pushes → s.free.head? = some head.value ∨ head.value ∉ s.free)
  next : ∀ head next, s.pc t = .pop head next → s.readAt t = s.pushes → head.value ∈ s.free →
    s.freeNextValue head.value = next
  points : ∀ id head, s.pc t = .push id head →
    s.freeNextValue id.value = head.value ∧ id.version = (head.version + 1) % T.size

/-- The invariant. -/
structure Inv (T : IdType) (s : State Tid) : Prop where
  version : s.freeHead.version = s.pushes % T.size
  linked : Links s.freeNextValue (freeListTail T) s.freeHead.value s.free
  nodup : s.free.Nodup
  heldNodup : ∀ t, ((s.held t).map VersionedValue.value).Nodup
  small : s.nextValue ≤ T.size - 2
  owned : Owned (List.range s.nextValue) s.At
  knows : ∀ t, Knows T s t

/-- What callers see: the values of all held ids are different, and every other value that
was handed out is on the free list once or on its way inside one running call. -/
structure Exclusive (T : IdType) (s : State Tid) : Prop where
  nodup : ∀ t, ((s.held t).map VersionedValue.value).Nodup
  oneHolder : ∀ t u a b, a ∈ s.held t → b ∈ s.held u → a.value = b.value → t = u
  notLost : ∃ free, Links s.freeNextValue (freeListTail T) s.freeHead.value free ∧
    ∀ v < s.nextValue, (∀ t, ∀ id ∈ s.held t, id.value ≠ v) →
      (free.count v = 1 ∧ ∀ t, (s.pc t).carries ≠ some v) ∨
        (v ∉ free ∧ ∃ t, (s.pc t).carries = some v ∧ ∀ u, (s.pc u).carries = some v → u = t)

theorem Inv.exclusive {s : State Tid} (h : Inv T s) : Exclusive T s := by
  refine ⟨h.heldNodup, fun t u a b ha hb eq => ?_, s.free, h.linked, fun v hv free => ?_⟩
  · have same := h.owned.unique (π := .held t) (ρ := .held u)
      (List.mem_map_of_mem ha) (eq ▸ List.mem_map_of_mem hb)
    cases same
    rfl
  · obtain ⟨π, at_⟩ := (h.owned.cover v).mp (List.mem_range.mpr hv)
    cases π with
    | held t =>
      obtain ⟨id, hid, rfl⟩ := List.mem_map.mp at_
      exact (free t id hid rfl).elim
    | free =>
      refine Or.inl ⟨List.count_eq_one_of_mem h.nodup at_, fun t carries => ?_⟩
      have same := h.owned.unique (π := .free) (ρ := .inTransit t) at_ carries
      cases same
    | inTransit t =>
      refine Or.inr ⟨fun mem => ?_, t, at_, fun u carries => ?_⟩
      · have same := h.owned.unique (π := .free) (ρ := .inTransit t) mem at_
        cases same
      · have same := h.owned.unique (π := .inTransit u) (ρ := .inTransit t) carries at_
        cases same
        rfl

theorem inv_unused (blank : Nat → Nat) : Inv T (unused Tid T blank) where
  version := (Nat.zero_mod _).symm
  linked := rfl
  nodup := List.nodup_nil
  heldNodup _ := List.nodup_nil
  small := Nat.zero_le _
  owned := by
    refine ⟨fun {π ρ x} hπ _ => ?_, fun x => ?_⟩
    · cases π <;> simp [State.At, unused, Pc.carries] at hπ
    · constructor
      · intro hx
        simp [unused] at hx
      · rintro ⟨π, hπ⟩
        cases π <;> simp [State.At, unused, Pc.carries] at hπ
  knows t := ⟨fun _ => nofun, fun _ _ => nofun, fun _ _ => nofun⟩

/-! ## Steps -/

/-- What a thread knows stays true when others pop, push, or store entries of values that
they carry. -/
theorem Knows.frame {s s' : State Tid} {u : Tid} (h : Knows T s u) (nodup : s.free.Nodup)
    (pc : s'.pc u = s.pc u) (readAt : s'.readAt u = s.readAt u) (pushes : s.pushes ≤ s'.pushes)
    (popped : s'.pushes = s.pushes → s'.free <:+ s.free)
    (entries : ∀ v, v ∈ s.free ∨ (s.pc u).carries = some v →
      s'.freeNextValue v = s.freeNextValue v) : Knows T s' u := by
  have still : ∀ {head}, (s.pc u).read? = some head → s.readAt u = s'.pushes →
      s'.pushes = s.pushes := fun hr now => by
    have := (h.read _ hr).2.1
    omega
  refine ⟨fun head hr => ?_, fun head next hp now mem => ?_, fun id head hp => ?_⟩
  · rw [pc] at hr
    obtain ⟨value, before, version, top⟩ := h.read head hr
    rw [readAt]
    refine ⟨value, Nat.le_trans before pushes, version, fun now => ?_⟩
    have same := still hr now
    obtain ⟨xs, eq⟩ := popped same
    rw [← eq] at top nodup
    obtain first | gone := top (now.trans same)
    · cases xs with
      | nil => exact Or.inl first
      | cons x xs =>
        cases first
        exact Or.inr fun mem => (List.nodup_cons.mp nodup).1 (List.mem_append_right xs mem)
    · exact Or.inr fun mem => gone (List.mem_append_right xs mem)
  · rw [pc] at hp
    rw [readAt] at now
    have same := still (by rw [hp]; rfl) now
    have old : head.value ∈ s.free := (popped same).subset mem
    rw [entries _ (Or.inl old)]
    exact h.next head next hp (now.trans same) old
  · rw [pc] at hp
    rw [entries _ (Or.inr (by rw [hp]; rfl))]
    exact h.points id head hp

/-- A thread that has neither read a head for `allocate` nor stored an entry for `deallocate`
knows nothing. -/
theorem knows_of {s : State Tid} {t : Tid} {p : Pc} (pc : s.pc t = p) (blind : p.read? = none)
    (unstored : ∀ id head, p ≠ .push id head) : Knows T s t where
  read head hr := by rw [pc, blind] at hr; cases hr
  next head next hp := by rw [← pc, hp] at blind; cases blind
  points id head hp := (unstored id head (pc ▸ hp)).elim

variable [DecidableEq Tid] {s : State Tid} {t : Tid}

/-- A call starts to carry a value. -/
theorem transit_begin {s' : State Tid} {p : Pc} {z : Nat} (pc : s'.pc = Function.update s.pc t p)
    (old : (s.pc t).carries = none) (new : p.carries = some z) (u : Tid) (v : Nat) :
    s'.At (.inTransit u) v ↔ s.At (.inTransit u) v ∨ u = t ∧ v = z := by
  simp only [State.At, pc]
  by_cases hu : u = t
  · subst hu
    simp [old, new, eq_comm]
  · simp [hu]

/-- A call no longer carries its value. -/
theorem transit_end {s' : State Tid} {p : Pc} {z : Nat} (pc : s'.pc = Function.update s.pc t p)
    (old : (s.pc t).carries = some z) (new : p.carries = none) (u : Tid) (v : Nat) :
    s'.At (.inTransit u) v ↔ s.At (.inTransit u) v ∧ ¬(u = t ∧ v = z) := by
  simp only [State.At, pc]
  by_cases hu : u = t
  · subst hu
    simp [old, new, eq_comm]
  · simp [hu]

omit [DecidableEq Tid] in
/-- A value on its way is not free. -/
theorem Inv.not_free (h : Inv T s) {v : Nat} (carried : (s.pc t).carries = some v) :
    v ∉ s.free := fun free => by
  have := h.owned.unique (π := .free) (ρ := .inTransit t) free carried
  cases this

omit [DecidableEq Tid] in
/-- The entries that thread `t` may store belong to no free value and to no value that
another thread carries. -/
theorem Inv.entries (h : Inv T s) {next : Nat → Nat}
    (same : ∀ v, (s.pc t).carries ≠ some v → next v = s.freeNextValue v) {u : Tid} (hu : u ≠ t)
    {v : Nat} (hv : v ∈ s.free ∨ (s.pc u).carries = some v) : next v = s.freeNextValue v := by
  refine same v fun mine => ?_
  obtain free | carried := hv
  · exact h.not_free mine free
  · have := h.owned.unique (π := .inTransit u) (ρ := .inTransit t) carried mine
    cases this
    exact hu rfl

/-- A thread goes on to a point where it knows nothing. What the others know stays true. -/
theorem Inv.knows_after (h : Inv T s) {s' : State Tid} {p : Pc}
    (pc : s'.pc = Function.update s.pc t p) (blind : p.read? = none)
    (unstored : ∀ id head, p ≠ .push id head) (readAt : s'.readAt = s.readAt)
    (pushes : s.pushes ≤ s'.pushes) (popped : s'.pushes = s.pushes → s'.free <:+ s.free)
    (entries : ∀ v, (s.pc t).carries ≠ some v → s'.freeNextValue v = s.freeNextValue v)
    (u : Tid) : Knows T s' u := by
  by_cases hu : u = t
  · subst hu
    exact knows_of (by rw [pc, Function.update_self]) blind unstored
  · exact (h.knows u).frame h.nodup (by rw [pc, Function.update_of_ne hu]) (by rw [readAt]) pushes
      popped fun v hv => h.entries entries hu hv

/-- A step in which the value of the thread stays in transit. -/
theorem Inv.rest (h : Inv T s) {p : Pc} {next : Nat → Nat} {readAt : Tid → Nat}
    (carries : p.carries = (s.pc t).carries) (others : ∀ u, u ≠ t → readAt u = s.readAt u)
    (entries : ∀ v, (s.pc t).carries ≠ some v → next v = s.freeNextValue v)
    (mine : Knows T ⟨s.nextValue, s.freeHead, next, Function.update s.pc t p, s.held, s.free,
      s.pushes, readAt⟩ t) :
    Inv T ⟨s.nextValue, s.freeHead, next, Function.update s.pc t p, s.held, s.free, s.pushes,
      readAt⟩ where
  version := h.version
  linked := h.linked.congr fun v hv => entries v fun mine => h.not_free mine hv
  nodup := h.nodup
  heldNodup := h.heldNodup
  small := h.small
  owned := by
    refine h.owned.congr fun π v => ?_
    cases π with
    | held u | free => rfl
    | inTransit u =>
      by_cases hu : u = t
      · subst hu; simp only [State.At, Function.update_self, carries]
      · simp only [State.At, Function.update_of_ne hu]
  knows u := by
    by_cases hu : u = t
    · exact hu ▸ mine
    · exact (h.knows u).frame h.nodup (Function.update_of_ne hu _ _) (others u hu) (Nat.le_refl _)
        (fun _ => List.suffix_rfl) fun v hv => h.entries entries hu hv

/-- The compare-exchange of `allocate` takes the top of the free list, if fewer pushes than
there are versions were made since it has read the head. -/
theorem Inv.pop (h : Inv T s) {head : VersionedValue} {next : Nat} (hp : s.pc t = .pop head next)
    (same : s.freeHead = head) (few : s.pushes < s.readAt t + T.size) :
    Inv T { s.goto t (.storeActive head) with
      freeHead := ⟨next, head.version⟩
      free := s.free.tail } := by
  obtain ⟨value, before, version, top⟩ := (h.knows t).read head (by rw [hp]; rfl)
  have now : s.readAt t = s.pushes := by
    have eq : s.readAt t % T.size = s.pushes % T.size := by
      rw [← version, ← h.version, same]
    have gap := Nat.sub_mod_eq_zero_of_mod_eq eq.symm
    rw [Nat.mod_eq_of_lt (by omega)] at gap
    omega
  obtain ⟨rest, free, linked⟩ := h.linked.exists_cons (same ▸ value)
  rw [same] at free linked
  have out : head.value ∉ rest := (List.nodup_cons.mp (free ▸ h.nodup)).1
  have right := (h.knows t).next head next hp now (by rw [free]; exact List.mem_cons_self)
  refine ⟨h.version ▸ same ▸ rfl, ?_, h.nodup.tail, h.heldNodup, h.small, ?_,
    h.knows_after rfl rfl (fun _ _ => nofun) rfl (Nat.le_refl _) (fun _ => List.tail_suffix _)
      fun _ _ => rfl⟩
  · change Links s.freeNextValue _ next s.free.tail
    rw [free, List.tail_cons, ← right]
    exact linked
  · refine h.owned.move (a := .free) (b := .inTransit t) (z := head.value)
      (by rw [State.At, free]; exact List.mem_cons_self) fun π v => ?_
    cases π with
    | held u => simp [State.At, State.goto]
    | free =>
      simp only [State.At, free, List.tail_cons, List.mem_cons]
      constructor
      · intro mem
        exact Or.inl ⟨Or.inr mem, fun ⟨_, eq⟩ => out (eq ▸ mem)⟩
      · rintro (⟨rfl | mem, ne⟩ | ⟨eq, -⟩)
        · exact (ne ⟨trivial, rfl⟩).elim
        · exact mem
        · cases eq
    | inTransit u =>
      simpa using transit_begin (s := s) (p := .storeActive head) rfl (by rw [hp]; rfl) rfl u v

/-- The compare-exchange of `deallocate` pushes the value that the call carries. -/
theorem Inv.push (h : Inv T s) {id head : VersionedValue} (hp : s.pc t = .push id head)
    (same : s.freeHead = head) :
    Inv T { s.goto t .idle with
      freeHead := id
      free := id.value :: s.free
      pushes := s.pushes + 1 } := by
  obtain ⟨points, version⟩ := (h.knows t).points id head hp
  have carried : s.At (.inTransit t) id.value := by rw [State.At, hp]; rfl
  have out := h.not_free carried
  have small : id.value ≠ freeListTail T := by
    have lt := List.mem_range.mp ((h.owned.cover _).mpr ⟨_, carried⟩)
    have := h.small
    have := T.two_lt_size
    unfold freeListTail
    omega
  refine ⟨?_, h.linked.cons small (by rw [points, same]), List.nodup_cons.mpr ⟨out, h.nodup⟩,
    h.heldNodup, h.small, ?_, h.knows_after rfl rfl (fun _ _ => nofun) rfl (Nat.le_succ _)
      (fun eq => absurd eq (Nat.succ_ne_self _)) fun _ _ => rfl⟩
  · simp only
    rw [version, ← same, h.version, Nat.mod_add_mod]
  · refine h.owned.move (a := .inTransit t) (b := .free) (z := id.value) carried fun π v => ?_
    cases π with
    | held u => simp [State.At, State.goto]
    | free =>
      simp only [State.At, List.mem_cons]
      grind
    | inTransit u => simpa using transit_end (s := s) (p := .idle) rfl carried rfl u v

/-- `allocate` marks the value that it carries as active and returns it. -/
theorem Inv.receive (h : Inv T s) {id : VersionedValue} (hp : (s.pc t).carries = some id.value) :
    Inv T ((s.store id.value (activeFlag T)).receive t id) := by
  have entries : ∀ v, (s.pc t).carries ≠ some v →
      Function.update s.freeNextValue id.value (activeFlag T) v = s.freeNextValue v := by
    intro v hv
    refine Function.update_of_ne ?_ _ _
    rintro rfl
    exact hv hp
  have new : id.value ∉ (s.held t).map VersionedValue.value := fun mem => by
    have := h.owned.unique (π := .held t) (ρ := .inTransit t) mem hp
    cases this
  refine ⟨h.version, h.linked.congr fun v hv => entries v fun mine => h.not_free mine hv, h.nodup,
    ?_, h.small, ?_, h.knows_after rfl rfl (fun _ _ => nofun) rfl (Nat.le_refl _)
      (fun _ => List.suffix_rfl) entries⟩
  · exact (Function.forall_update_iff s.held fun _ ids => (ids.map VersionedValue.value).Nodup).mpr
      ⟨List.nodup_cons.mpr ⟨new, h.heldNodup t⟩, fun u _ => h.heldNodup u⟩
  · refine h.owned.move (a := .inTransit t) (b := .held t) (z := id.value) hp fun π v => ?_
    cases π with
    | held u =>
      by_cases hu : u = t
      · subst hu
        simp only [State.At, State.receive, State.store, State.goto, Function.update_self,
          List.map_cons, List.mem_cons]
        grind
      · simp [State.At, State.receive, State.store, State.goto, hu]
    | free => simp [State.At, State.receive, State.store, State.goto]
    | inTransit u => simpa using transit_end (s := s) (p := .idle) rfl hp rfl u v

/-- `next_value` gives a new value. -/
theorem Inv.fetchAdd (h : Inv T s) (hp : s.pc t = .fetchAdd)
    (small : (s.nextValue + 1) % T.size ≤ T.size - 2) :
    Inv T { s.goto t (.ensure ⟨s.nextValue, 0⟩) with
      nextValue := (s.nextValue + 1) % T.size } := by
  refine ⟨h.version, h.linked, h.nodup, h.heldNodup, small, ?_,
    h.knows_after rfl rfl (fun _ _ => nofun) rfl (Nat.le_refl _) (fun _ => List.suffix_rfl)
      fun _ _ => rfl⟩
  refine h.owned.create (b := .inTransit t) (z := s.nextValue) (by simp) (fun v => ?_)
    fun π v => ?_
  · have := h.small
    have := T.two_lt_size
    simp only
    rw [Nat.mod_eq_of_lt (by omega)]
    simp only [List.mem_range]
    omega
  · cases π with
    | held u | free => simp [State.At, State.goto]
    | inTransit u =>
      simpa using transit_begin (s := s) (p := .ensure ⟨s.nextValue, 0⟩) rfl
        (by rw [hp]; rfl) rfl u v

/-- A thread starts to give back an id that it holds. -/
theorem Inv.deallocate (h : Inv T s) {id : VersionedValue} (hp : s.pc t = .idle)
    (mem : id ∈ s.held t) :
    Inv T { s.goto t (.loadTop id) with
      held := Function.update s.held t ((s.held t).erase id) } := by
  have left : ∀ v, v ∈ ((s.held t).erase id).map VersionedValue.value ↔
      v ∈ (s.held t).map VersionedValue.value ∧ v ≠ id.value := by
    have nodup := h.heldNodup t
    intro v
    simp only [List.mem_map, (nodup.of_map _).mem_erase_iff]
    constructor
    · rintro ⟨a, ⟨ne, ha⟩, rfl⟩
      exact ⟨⟨a, ha, rfl⟩, fun eq => ne (List.inj_on_of_nodup_map nodup ha mem eq)⟩
    · rintro ⟨⟨a, ha, rfl⟩, ne⟩
      exact ⟨a, ⟨fun eq => ne (congrArg _ eq), ha⟩, rfl⟩
  refine ⟨h.version, h.linked, h.nodup, ?_, h.small, ?_,
    h.knows_after rfl rfl (fun _ _ => nofun) rfl (Nat.le_refl _) (fun _ => List.suffix_rfl)
      fun _ _ => rfl⟩
  · exact (Function.forall_update_iff s.held fun _ ids => (ids.map VersionedValue.value).Nodup).mpr
      ⟨(h.heldNodup t).sublist (List.erase_sublist.map _), fun u _ => h.heldNodup u⟩
  · refine h.owned.move (a := .held t) (b := .inTransit t) (z := id.value)
      (List.mem_map_of_mem mem) fun π v => ?_
    cases π with
    | held u =>
      by_cases hu : u = t
      · subst hu
        simp [State.At, left]
      · simp [State.At, hu]
    | free => simp [State.At, State.goto]
    | inTransit u =>
      simpa using transit_begin (s := s) (p := .loadTop id) rfl (by rw [hp]; rfl) rfl u v

/-- What a thread knows that has just read the head. -/
theorem Inv.look (h : Inv T s) (carries : (s.pc t).carries = none) :
    Inv T ((s.see t).goto t (State.look T s.freeHead)) := by
  refine h.rest ?_ (fun u hu => Function.update_of_ne hu _ _) (fun _ _ => rfl) ?_
  · unfold State.look
    split_ifs <;> exact carries.symm
  · unfold State.look
    split_ifs with some
    · refine ⟨fun head hr => ?_, fun _ _ hp => by simp at hp, fun _ _ hp => by simp at hp⟩
      simp only [Function.update_self, Pc.read?, Option.some.injEq] at hr ⊢
      subst hr
      obtain ⟨rest, free, -⟩ := h.linked.exists_cons some
      have now : (s.see t).readAt t = s.pushes := Function.update_self ..
      refine ⟨some, Nat.le_of_eq now, ?_, fun _ => Or.inl (by rw [free]; rfl)⟩
      rw [now]
      exact h.version
    · exact knows_of (Function.update_self ..) rfl fun _ _ => nofun

/-- `deallocate` has just read the head. -/
theorem Inv.seeTop (h : Inv T s) {id : VersionedValue}
    (carries : (s.pc t).carries = some id.value) :
    Inv T ((s.see t).goto t (.storeNext id s.freeHead)) := by
  refine h.rest carries.symm (fun u hu => Function.update_of_ne hu _ _) (fun _ _ => rfl) ?_
  exact knows_of (Function.update_self ..) rfl fun _ _ => nofun

/-- One step of a thread. -/
theorem Inv.advance (h : Inv T s) {s' : State Tid} (hs : s.advance T t = some s')
    (small : s'.nextValue ≤ T.size - 2)
    (few : ∀ head next, s.pc t = .pop head next → s.pushes < s.readAt t + T.size) : Inv T s' := by
  unfold State.advance at hs
  cases hp : s.pc t with
  | idle => simp only [hp] at hs; cases hs
  | loadHead =>
    simp only [hp, Option.some.injEq] at hs
    subst hs
    exact h.look (by rw [hp]; rfl)
  | loadNext head =>
    simp only [hp, Option.some.injEq] at hs
    subst hs
    have knows := (h.knows t).read head (by rw [hp]; rfl)
    refine h.rest (by rw [hp]; rfl) (fun _ _ => rfl) (fun _ _ => rfl) ⟨fun head' hr => ?_, ?_, ?_⟩
    · simp only [Function.update_self, Pc.read?, Option.some.injEq] at hr
      subst hr
      exact knows
    · intro head' next eq _ _
      simp only [Function.update_self, Pc.pop.injEq] at eq
      rw [← eq.1, eq.2]
    · exact fun _ _ eq => by simp at eq
  | pop head next =>
    simp only [hp] at hs
    split_ifs at hs with same <;> cases hs
    · exact h.pop hp same (few head next hp)
    · exact h.look (by rw [hp]; rfl)
  | storeActive id | ensure id =>
    simp only [hp, Option.some.injEq] at hs
    subst hs
    exact h.receive (by rw [hp]; rfl)
  | fetchAdd =>
    simp only [hp, Option.some.injEq] at hs
    subst hs
    exact h.fetchAdd hp small
  | loadTop id =>
    simp only [hp, Option.some.injEq] at hs
    subst hs
    exact h.seeTop (by rw [hp]; rfl)
  | storeNext id head =>
    simp only [hp, Option.some.injEq] at hs
    subst hs
    refine h.rest (by rw [hp]; rfl) (fun _ _ => rfl) (fun v hv => ?_) ⟨?_, ?_, ?_⟩
    · refine Function.update_of_ne ?_ _ _
      rintro rfl
      exact hv (by rw [hp]; rfl)
    · exact fun _ hr => by simp [Pc.read?] at hr
    · exact fun _ _ eq => by simp at eq
    · intro id' head' eq
      simp only [Function.update_self, Pc.push.injEq] at eq
      obtain ⟨rfl, rfl⟩ := eq
      exact ⟨Function.update_self .., rfl⟩
  | push id head =>
    simp only [hp] at hs
    split_ifs at hs with same <;> cases hs
    · exact h.push hp same
    · exact h.seeTop (by rw [hp]; rfl)

/-- `next_value` stays below the two marks, and fewer deallocations than there are versions
fall between a read of the head by `allocate` and its compare-exchange. -/
def disciplined (T : IdType) (s : State Tid) (m : Tid × Move) (s' : State Tid) : Prop :=
  s'.nextValue ≤ T.size - 2 ∧
    match s.pc m.1 with
    | .pop _ _ => s.pushes < s.readAt m.1 + T.size
    | _ => True

instance (s s' : State Tid) (m : Tid × Move) : Decidable (disciplined T s m s') := by
  unfold disciplined
  split <;> infer_instance

/-- One move. -/
theorem Inv.step (h : Inv T s) {m : Move} {s' : State Tid} (hs : s.step T (t, m) = some s')
    (side : disciplined T s (t, m) s') : Inv T s' := by
  cases m with
  | allocate =>
    simp only [State.step] at hs
    split at hs
    · rename_i hp
      cases hs
      refine h.rest (by rw [hp]; rfl) (fun _ _ => rfl) (fun _ _ => rfl) ?_
      exact knows_of (Function.update_self ..) rfl fun _ _ => nofun
    · cases hs
  | deallocate id =>
    simp only [State.step] at hs
    split at hs
    · rename_i hp
      split_ifs at hs with mem
      cases hs
      exact h.deallocate hp mem
    · cases hs
  | step =>
    refine h.advance hs side.1 fun head next hp => ?_
    have := side.2
    simp only [hp] at this
    exact this
  | weakFail =>
    simp only [State.step] at hs
    split at hs
    · rename_i hp
      cases hs
      exact h.look (by rw [hp]; rfl)
    · rename_i hp
      cases hs
      exact h.seeTop (by rw [hp]; rfl)
    · cases hs

/-- In every interleaving, no value has two holders and no value is lost. -/
theorem exclusive_of_reach {blank : Nat → Nat}
    (h : (machine Tid T blank).Reach (disciplined T) s) : Exclusive T s := by
  refine Inv.exclusive (h.inv ?_ ?_)
  · rintro s rfl
    exact inv_unused blank
  · rintro s ⟨t, m⟩ s' inv hs side
    exact inv.step hs side

/-- Two threads take new ids, one gives its id back, and two others race for it. -/
def raceForFree : List (Nat × Move) :=
  (0, .allocate) :: List.replicate 3 (0, .step) ++
    (1, .allocate) :: List.replicate 3 (1, .step) ++
    (0, .deallocate ⟨0, 0⟩) :: List.replicate 3 (0, .step) ++
    (2, .allocate) :: List.replicate 2 (2, .step) ++
    (3, .allocate) :: List.replicate 4 (3, .step) ++ List.replicate 3 (2, .step)

/-- The loser of the race takes a new id. -/
theorem exclusive_of_reach_raceForFree :
    ∃ s, (machine Nat .uint16 fun _ => 0).run (unused Nat .uint16 fun _ => 0) raceForFree = some s ∧
      s.held 1 = [⟨1, 0⟩] ∧ s.held 2 = [⟨2, 0⟩] ∧ s.held 3 = [⟨0, 1⟩] ∧ Exclusive .uint16 s := by
  have along : (machine Nat .uint16 fun _ => 0).Along (disciplined .uint16)
      (unused Nat .uint16 fun _ => 0) raceForFree := by decide +kernel
  have seen : ((machine Nat .uint16 fun _ => 0).run (unused Nat .uint16 fun _ => 0)
      raceForFree).map (fun s => (s.held 1, s.held 2, s.held 3)) =
        some ([⟨1, 0⟩], [⟨2, 0⟩], [⟨0, 1⟩]) := by decide +kernel
  obtain ⟨s, run, reach, seen⟩ := Machine.Reach.of_along_seen (.start rfl) along seen
  simp only [Prod.mk.injEq] at seen
  exact ⟨s, run, seen.1, seen.2.1, seen.2.2, exclusive_of_reach reach⟩

end Fuxi.Base.IdAllocator
