import Fuxi.Lib.Machine
import Fuxi.Shm.Topo.DomainLayout

/-!
# `ShmDomain`

Every process has a `ShmDomain` object, and all of them work on one layout. A process
registers itself and the names it reads and writes; `Push` puts an object into the event
queues of the processes that read a name, and `Pop` takes one out of the own queue.
-/

namespace Fuxi.Shm

open Lib Topo

/-- The fields `inited_` and `process_idx_` of `ShmDomain`. -/
structure ShmDomain where
  inited : Bool := false
  processIdx : Int := -1

namespace ShmDomain

/-- `RegisterProcess`, which drops the result of `RegisterPid`. -/
def registerProcess (l : ShmDomainLayout) (pid : Int) : ShmDomainLayout × Int :=
  ((l.registerPid pid).1, 0)

/-- `Initialize` of a process, when its `metadata_` has found the layout. -/
def initialized (d : ShmDomain) (l : ShmDomainLayout) (pid : Int) : ShmDomain × ShmDomainLayout :=
  if d.inited then (d, l)
  else
    let (l', processIdx) := registerProcess l pid
    if processIdx = -1 then ({ d with processIdx := processIdx }, l')
    else (⟨true, processIdx⟩, l')

/-- `Push`. -/
def push (l : ShmDomainLayout) (c : RefCounts) (writerId object fuel : Nat) :
    Option (ShmDomainLayout × RefCounts) :=
  let slot := l.topoState.writerSlotTable writerId
  (List.range slot.readerNum).foldlM
    (fun s i =>
      let reader := slot.readerSlots i
      if reader.isOnline = false then some s
      else s.1.pushTo s.2 reader.processStateIndex object fuel)
    (l, c)

/-- `Pop`, or `none` if it waits. -/
def pop (d : ShmDomain) (l : ShmDomainLayout) : Option (ShmDomainLayout × Option Nat) :=
  if d.processIdx < 0 then some (l, none)
  else do
    let p ← l.getProcessState d.processIdx
    let r ← p.pop
    return (l.setProcessState d.processIdx.toNat r.1, some r.2)

end ShmDomain

/-! ## Runs -/

/-- What the calls have returned so far: the writer indices of names, the readers
`(pid, name)`, the objects pushed on writer indices and the objects popped by processes. -/
structure Traffic where
  indexed : List (Name × Nat) := []
  readers : List (Int × Name) := []
  pushed : List (Nat × Nat) := []
  popped : List (Int × Nat) := []

/-- The processes of one domain; `domain` is by pid. -/
structure Domain where
  layout : ShmDomainLayout
  refCnt : RefCounts := fun _ => 0
  domain : Int → ShmDomain := fun _ => {}
  traffic : Traffic := {}

/-- The calls of the processes. -/
inductive DomainOp
  | initialized (pid : Int)
  | registerWriter (pid : Int) (name : Name)
  | registerReader (pid : Int) (name : Name)
  | push (pid : Int) (writerId object fuel : Nat)
  | pop (pid : Int)

/-- A writer index that a caller has got for a name. -/
def Traffic.index (h : Traffic) (name : Name) (idx : Int) : Traffic :=
  if 0 ≤ idx then { h with indexed := (name, idx.toNat) :: h.indexed } else h

/-- A process has got a reader index for a name. -/
def Traffic.reader (h : Traffic) (pid : Int) (name : Name) (idx : Int) : Traffic :=
  if 0 ≤ idx then { h with readers := (pid, name) :: h.readers } else h

namespace Domain

/-- One call that returns. A process registers names and pushes once its `Initialize` has
set `metadata_`, and `Push` gets a writer index that a registration has returned. -/
def step (s : Domain) : DomainOp → Option Domain
  | .initialized pid =>
    let (d, l) := (s.domain pid).initialized s.layout pid
    some { s with layout := l, domain := Function.update s.domain pid d }
  | .registerWriter pid name =>
    if (s.domain pid).inited then
      let (t, idx) := s.layout.topoState.registerWriter name
      some { s with
        layout := { s.layout with topoState := t }
        traffic := s.traffic.index name idx }
    else none
  | .registerReader pid name =>
    if (s.domain pid).inited then
      let (t, idx) := s.layout.topoState.registerReader (s.domain pid).processIdx name
      some { s with
        layout := { s.layout with topoState := t }
        traffic := (s.traffic.index name idx.writerIdx).reader pid name idx.readerIdx }
    else none
  | .push pid writerId object fuel =>
    if (s.domain pid).inited ∧ writerId < s.layout.topoState.writerNum then
      (ShmDomain.push s.layout s.refCnt writerId object fuel).map fun r =>
        { s with
          layout := r.1
          refCnt := r.2
          traffic := { s.traffic with pushed := (writerId, object) :: s.traffic.pushed } }
    else none
  | .pop pid =>
    ((s.domain pid).pop s.layout).map fun r =>
      { s with
        layout := r.1
        traffic :=
          { s.traffic with popped := r.2.toList.map (pid, ·) ++ s.traffic.popped } }

/-- The objects in the event queue of an entry of the process table. -/
def events (s : Domain) (i : Nat) : List Nat := (s.layout.processState i).events

/-- The readers of a writer index, as indices of the process table. -/
def readers (s : Domain) (writerId : Nat) : List Int :=
  (s.layout.topoState.writerSlotTable writerId).readers

end Domain

/-- Any number of processes run on a new layout. -/
def domainMachine : Machine Domain DomainOp where
  start s := ∃ c, s = { layout := ShmDomainLayout.initialized, refCnt := c }
  step := Domain.step

/-! ## What a domain promises -/

/-- A push on the writer index of a name returns, and it appends the object to the event
queues of exactly the processes that have registered a reader for the name. -/
def Delivers (s : Domain) (pid : Int) (name : Name) (writerId object : Nat) : Prop :=
  (∃ fuel s', s.step (.push pid writerId object fuel) = some s') ∧
    ∀ fuel s', s.step (.push pid writerId object fuel) = some s' →
      ∀ i < s.layout.processCnt, s'.events i = s.events i ++
        if ((s.layout.processState i).pid, name) ∈ s.traffic.readers then [object] else []

/-- Every process pops only objects pushed on names that it has registered as a reader. -/
def PopsOwn (s : Domain) : Prop :=
  ∀ r ∈ s.traffic.popped, ∃ name writerId, (r.1, name) ∈ s.traffic.readers ∧
    (name, writerId) ∈ s.traffic.indexed ∧ (writerId, r.2) ∈ s.traffic.pushed

/-- No event queue is full. -/
def NoneFull (s : Domain) : Prop :=
  ∀ i < s.layout.processCnt, (s.events i).length < maxReaderEventSize

/-- The process index that the object of a process keeps is that of the process. -/
def OwnIndex (s : Domain) (pid : Int) : Prop :=
  0 ≤ (s.domain pid).processIdx ∧ (s.domain pid).processIdx.toNat < s.layout.processCnt ∧
    (s.layout.processState (s.domain pid).processIdx.toNat).pid = pid

instance (s : Domain) (pid : Int) : Decidable (OwnIndex s pid) :=
  inferInstanceAs (Decidable (_ ∧ _ ∧ _))

/-- The condition on each call: readers and pops belong to processes that keep their own
index, different names stay apart in the table, and a push finds no queue full, with
counters that show the room. -/
def Proper (s : Domain) : DomainOp → Prop
  | .initialized _ => True
  | .registerWriter _ name => ∀ r ∈ s.traffic.indexed, Alike r.1 name → r.1 = name
  | .registerReader pid name =>
    OwnIndex s pid ∧ ∀ r ∈ s.traffic.indexed, Alike r.1 name → r.1 = name
  | .push _ writerId _ _ => NoneFull s ∧ ∀ i ∈ s.readers writerId,
    (s.layout.processState i.toNat).readerEventQueue.roomSeen
  | .pop pid => OwnIndex s pid

instance (s : Domain) : Decidable (NoneFull s) := Nat.decidableBallLT _ _

instance (s : Domain) : (op : DomainOp) → Decidable (Proper s op)
  | .initialized _ => inferInstanceAs (Decidable True)
  | .registerWriter _ _ => inferInstanceAs (Decidable (∀ _ ∈ _, _ → _))
  | .registerReader _ _ => inferInstanceAs (Decidable (_ ∧ ∀ _ ∈ _, _ → _))
  | .push _ _ _ _ => inferInstanceAs (Decidable (_ ∧ ∀ _ ∈ _, _))
  | .pop _ => inferInstanceAs (Decidable (OwnIndex _ _))

/-- Runs of proper calls. -/
def proper (s : Domain) (op : DomainOp) (_ : Domain) : Prop := Proper s op

instance (s s' : Domain) (op : DomainOp) : Decidable (proper s op s') :=
  inferInstanceAs (Decidable (Proper s op))

/-- What holds in every state of a run of proper calls. -/
structure Routed (s : Domain) (names : List Name) : Prop where
  topo : s.layout.topoState.Holds names
  numbered : s.layout.Numbered
  indexed : ∀ w a, names[w]? = some a ↔ (a, w) ∈ s.traffic.indexed
  entry : ∀ w, ∀ p ∈ s.readers w, ∃ i : Nat, p = i ∧ i < s.layout.processCnt
  owner : ∀ r ∈ s.traffic.readers, r.2 ∈ names ∧
    ∃ i < s.layout.processCnt, (s.layout.processState i).pid = r.1
  connected : ∀ w a, names[w]? = some a → ∀ i < s.layout.processCnt,
    (i : Int) ∈ s.readers w ↔ ((s.layout.processState i).pid, a) ∈ s.traffic.readers
  queues : ∀ i, (s.layout.processState i).Ok maxReaderEventSize
  empty : ∀ i, s.layout.processCnt ≤ i → s.events i = []
  source : ∀ i < s.layout.processCnt, ∀ o ∈ s.events i, ∃ name w,
    ((s.layout.processState i).pid, name) ∈ s.traffic.readers ∧
      (name, w) ∈ s.traffic.indexed ∧ (w, o) ∈ s.traffic.pushed
  popsOwn : PopsOwn s

theorem Routed.start (c : RefCounts) :
    Routed { layout := ShmDomainLayout.initialized, refCnt := c } [] where
  topo := TopoData.holds_start
  numbered := ⟨Nat.zero_le _, fun i hi => absurd hi (Nat.not_lt_zero i)⟩
  indexed := by simp
  entry := fun _ _ hp => absurd hp List.not_mem_nil
  owner := fun _ hr => absurd hr List.not_mem_nil
  connected := fun w a h => by simp at h
  queues := fun _ => (ProcessState.initialized_ok 0 maxReaderEventSize).1
  empty := fun _ _ => (ProcessState.initialized_ok 0 maxReaderEventSize).2
  source := fun i hi => absurd hi (Nat.not_lt_zero i)
  popsOwn := fun _ hr => absurd hr List.not_mem_nil

namespace Routed

variable {s : Domain} {names : List Name}

/-- Only one index belongs to a name. -/
theorem index_unique (h : s.layout.topoState.Holds names) {v w : Nat} {a : Name}
    (hv : names[v]? = some a) (hw : names[w]? = some a) : v = w := by
  by_contra ne
  obtain ⟨lv, rfl⟩ := List.getElem?_eq_some_iff.mp hv
  obtain ⟨lw, eq⟩ := List.getElem?_eq_some_iff.mp hw
  rcases Nat.lt_or_gt_of_ne ne with lt | lt
  · exact List.pairwise_iff_getElem.mp h.apart v w lv lw lt (eq ▸ Alike.refl _)
  · exact List.pairwise_iff_getElem.mp h.apart w v lw lv lt (eq ▸ Alike.refl _)

/-- A new process gets the next entry of the process table. -/
theorem newEntry (h : Routed s names) {pid : Int} {l : ShmDomainLayout} {d : Int → ShmDomain}
    (new : ∀ i < s.layout.processCnt, (s.layout.processState i).pid ≠ pid)
    (room : s.layout.processCnt < maxProcessNum) (topo : l.topoState = s.layout.topoState)
    (cnt : l.processCnt = s.layout.processCnt + 1)
    (queue : ∀ i, (l.processState i).readerEventQueue = (s.layout.processState i).readerEventQueue)
    (pids : ∀ i, (l.processState i).pid =
      if i = s.layout.processCnt then pid else (s.layout.processState i).pid) :
    Routed { s with layout := l, domain := d } names := by
  have events : ∀ i, (l.processState i).events = s.events i := fun i => by
    rw [ProcessState.events, queue]; rfl
  have old : ∀ i < s.layout.processCnt,
      (l.processState i).pid = (s.layout.processState i).pid := by
    intro i hi
    rw [pids, if_neg hi.ne]
  have last : ∀ i < l.processCnt, i < s.layout.processCnt ∨ i = s.layout.processCnt :=
    fun i hi => by omega
  have notRead : ∀ a, (pid, a) ∉ s.traffic.readers := by
    intro a ha
    obtain ⟨-, i, hi, eq⟩ := h.owner _ ha
    exact new i hi eq
  refine ⟨topo ▸ h.topo, ⟨cnt ▸ room, fun i hi j hj eq => ?_⟩, h.indexed, fun w p hp => ?_,
    fun r hr => ?_, fun w a ha i hi => ?_, fun i => ⟨?_, ?_, ?_⟩, fun i hi => ?_, fun i hi o ho => ?_,
    h.popsOwn⟩
  · rcases last i hi with hi | rfl <;> rcases last j hj with hj | rfl
    · exact h.numbered.pids i hi j hj (by rw [← old i hi, ← old j hj, eq])
    · rw [old i hi, pids, if_pos rfl] at eq
      exact absurd eq (new i hi)
    · rw [old j hj, pids, if_pos rfl] at eq
      exact absurd eq.symm (new j hj)
    · rfl
  · simp only [Domain.readers, topo] at hp
    obtain ⟨i, rfl, hi⟩ := h.entry w p hp
    exact ⟨i, rfl, by simp only [cnt]; omega⟩
  · obtain ⟨named, i, hi, eq⟩ := h.owner r hr
    exact ⟨named, i, by simp only [cnt]; omega, by rw [← eq]; exact old i hi⟩
  · simp only [Domain.readers, topo]
    rcases last i hi with hi | rfl
    · rw [old i hi]; exact h.connected w a ha i hi
    · rw [pids, if_pos rfl]
      refine ⟨fun mem => ?_, fun mem => absurd mem (notRead a)⟩
      obtain ⟨j, e, hj⟩ := h.entry w _ mem
      have : s.layout.processCnt = j := by exact_mod_cast e
      omega
  · rw [queue]; exact (h.queues i).capacity
  · rw [queue]; exact (h.queues i).room
  · rw [events, queue]; exact (h.queues i).holds
  · simp only [Domain.events, events]
    exact h.empty i (by simp only [cnt] at hi; omega)
  · simp only [Domain.events, events] at ho
    rcases last i hi with hi | rfl
    · rw [old i hi]; exact h.source i hi o ho
    · have none := h.empty _ le_rfl
      rw [Domain.events] at none
      rw [none] at ho
      exact absurd ho List.not_mem_nil

/-- A process gets an entry of the process table, or it has one. -/
theorem initialized (h : Routed s names) {pid : Int} {s' : Domain}
    (hs : s.step (.initialized pid) = some s') : Routed s' names := by
  have keep : ∀ d, Routed { s with domain := d } names := fun d =>
    ⟨h.topo, h.numbered, h.indexed, h.entry, h.owner, h.connected, h.queues, h.empty, h.source,
      h.popsOwn⟩
  by_cases again : (s.domain pid).inited
  · have eq : (s.domain pid).initialized s.layout pid = (s.domain pid, s.layout) := by
      simp [ShmDomain.initialized, again]
    simp only [Domain.step, eq, Option.some.injEq] at hs
    subst hs
    exact keep _
  · have eq : (s.domain pid).initialized s.layout pid =
        (⟨true, 0⟩, (s.layout.registerPid pid).1) := by
      simp [ShmDomain.initialized, again, ShmDomain.registerProcess]
    simp only [Domain.step, eq, Option.some.injEq] at hs
    subst hs
    obtain ⟨i, -, -, eq⟩ | ⟨new, ⟨-, eq⟩ | ⟨room, eq⟩⟩ := s.layout.registerPid_cases pid
    · simp only [eq]
      exact keep _
    · simp only [eq]
      exact keep _
    · simp only [eq]
      refine h.newEntry new room rfl rfl (fun i => ?_) fun i => ?_ <;>
        by_cases e : i = s.layout.processCnt
      · subst e; simp
      · simp only [s.layout.setProcessState_of_ne _ e]
      · subst e; simp
      · simp only [s.layout.setProcessState_of_ne _ e, e, if_false]

/-- A name gets a writer index. -/
theorem register (h : Routed s names) {name : Name} {names' : List Name} {w : Nat} {d : TopoData}
    (holds : d.Holds names') (registers : Registers names names' name w)
    (readers : ∀ v, (d.writerSlotTable v).readers = s.readers v)
    (clear : ∀ r ∈ s.traffic.indexed, Alike r.1 name → r.1 = name) :
    Routed { s with layout := { s.layout with topoState := d }, traffic := s.traffic.index name w }
        names' ∧ names'[w]? = some name := by
  have traffic : s.traffic.index name w =
      { s.traffic with indexed := (name, w) :: s.traffic.indexed } := by
    simp [Traffic.index]
  have source : ∀ i < s.layout.processCnt, ∀ o ∈ s.events i, ∃ a v,
      ((s.layout.processState i).pid, a) ∈ s.traffic.readers ∧
        (a, v) ∈ (name, w) :: s.traffic.indexed ∧ (v, o) ∈ s.traffic.pushed := by
    intro i hi o ho
    obtain ⟨a, v, h1, h2, h3⟩ := h.source i hi o ho
    exact ⟨a, v, h1, List.mem_cons_of_mem _ h2, h3⟩
  have popsOwn : ∀ r ∈ s.traffic.popped, ∃ a v, (r.1, a) ∈ s.traffic.readers ∧
      (a, v) ∈ (name, w) :: s.traffic.indexed ∧ (v, r.2) ∈ s.traffic.pushed := by
    intro r hr
    obtain ⟨a, v, h1, h2, h3⟩ := h.popsOwn r hr
    exact ⟨a, v, h1, List.mem_cons_of_mem _ h2, h3⟩
  have numbered : ({ s.layout with topoState := d } : ShmDomainLayout).Numbered :=
    ⟨h.numbered.fits, h.numbered.pids⟩
  rw [traffic]
  obtain ⟨a, ha, alike, rfl⟩ | ⟨new, rfl, rfl⟩ := registers
  · have eq : a = name := clear (a, w) ((h.indexed w a).mp ha) alike
    subst eq
    refine ⟨⟨holds, numbered, fun v b => ?_, fun v p hp => ?_, h.owner, fun v b hb i hi => ?_,
      h.queues, h.empty, source, popsOwn⟩, ha⟩
    · rw [h.indexed, List.mem_cons, Prod.mk.injEq]
      constructor
      · exact Or.inr
      · rintro (⟨rfl, rfl⟩ | old)
        · exact (h.indexed v b).mp ha
        · exact old
    · exact h.entry v p (readers v ▸ hp)
    · rw [Domain.readers, readers]
      exact h.connected v b hb i hi
  · have named : (names ++ [name])[names.length]? = some name := by simp
    have get : ∀ v b, (names ++ [name])[v]? = some b ↔
        names[v]? = some b ∨ v = names.length ∧ b = name := by
      intro v b
      rcases Nat.lt_trichotomy v names.length with lt | rfl | gt
      · rw [List.getElem?_append_left lt]
        exact ⟨Or.inl, fun h => h.resolve_right fun e => absurd e.1 lt.ne⟩
      · simp [eq_comm]
      · have : (names ++ [name])[v]? = none := List.getElem?_eq_none (by simp; omega)
        have : names[v]? = none := List.getElem?_eq_none gt.le
        simp [*, gt.ne']
    refine ⟨⟨holds, numbered, fun v b => ?_, fun v p hp => ?_, fun r hr => ?_,
      fun v b hb i hi => ?_, h.queues, h.empty, source, popsOwn⟩, named⟩
    · rw [get, h.indexed, List.mem_cons, Prod.mk.injEq, or_comm, and_comm]
    · exact h.entry v p (readers v ▸ hp)
    · exact ⟨List.mem_append_left _ (h.owner r hr).1, (h.owner r hr).2⟩
    · rw [Domain.readers, readers]
      rcases (get v b).mp hb with old | ⟨rfl, rfl⟩
      · exact h.connected v b old i hi
      · rw [Domain.readers, h.topo.blank _ le_rfl]
        simp only [List.not_mem_nil, false_iff]
        exact fun hr => new _ (h.owner _ hr).1 (Alike.refl _)

/-- A process gets a reader index. -/
theorem connect (h : Routed s names) {name : Name} {w : Nat} {d : TopoData} {pid : Int}
    {r : Nat} (holds : d.Holds names) (named : names[w]? = some name) (own : OwnIndex s pid)
    (mine : (d.writerSlotTable w).readers = if (s.domain pid).processIdx ∈ s.readers w then
      s.readers w else s.readers w ++ [(s.domain pid).processIdx])
    (others : ∀ v ≠ w, (d.writerSlotTable v).readers = s.readers v) :
    Routed { s with
      layout := { s.layout with topoState := d }
      traffic := s.traffic.reader pid name r } names := by
  obtain ⟨idx, lt, pid'⟩ := own
  obtain ⟨k, hk⟩ := Int.eq_ofNat_of_zero_le idx
  rw [hk] at mine lt pid'
  rw [Int.toNat_natCast] at lt pid'
  have traffic : s.traffic.reader pid name r =
      { s.traffic with readers := (pid, name) :: s.traffic.readers } := by
    simp [Traffic.reader]
  have mem : ∀ p, p ∈ (d.writerSlotTable w).readers ↔ p ∈ s.readers w ∨ p = k := by
    intro p
    rw [mine]
    split_ifs with old
    · exact ⟨Or.inl, fun h => h.elim id fun e => e ▸ old⟩
    · simp
  rw [traffic]
  refine ⟨holds, ⟨h.numbered.fits, h.numbered.pids⟩, h.indexed, fun v p hp => ?_,
    fun r hr => ?_, fun v b hb i hi => ?_, h.queues, h.empty, fun i hi o ho => ?_, fun r hr => ?_⟩
  · by_cases e : v = w
    · subst e
      rcases (mem p).mp hp with old | rfl
      · exact h.entry v p old
      · exact ⟨k, rfl, lt⟩
    · exact h.entry v p (others v e ▸ hp)
  · rcases List.mem_cons.mp hr with rfl | hr
    · exact ⟨List.mem_of_getElem? named, k, lt, pid'⟩
    · exact h.owner r hr
  · simp only [Domain.readers, List.mem_cons, Prod.mk.injEq]
    by_cases e : v = w
    · subst e
      cases named.symm.trans hb
      rw [mem, h.connected v _ named i hi, or_comm]
      refine or_congr_left ⟨fun e => ?_, fun e => ?_⟩
      · have : i = k := by exact_mod_cast e
        exact ⟨by rw [this]; exact pid', rfl⟩
      · rw [h.numbered.pids i hi k lt (e.1.trans pid'.symm)]
    · rw [others v e, h.connected v b hb i hi]
      refine ⟨Or.inr, fun h' => h'.resolve_left ?_⟩
      rintro ⟨-, rfl⟩
      exact e (index_unique h.topo hb named)
  · obtain ⟨a, v, h1, h2⟩ := h.source i hi o ho
    exact ⟨a, v, List.mem_cons_of_mem _ h1, h2⟩
  · obtain ⟨a, v, h1, h2⟩ := h.popsOwn r hr
    exact ⟨a, v, List.mem_cons_of_mem _ h1, h2⟩

/-- The queues and the objects change, the tables do not. -/
theorem requeue (h : Routed s names) {l : ShmDomainLayout} {c : RefCounts} {f : Traffic}
    (topo : l.topoState = s.layout.topoState) (cnt : l.processCnt = s.layout.processCnt)
    (pid : ∀ i, (l.processState i).pid = (s.layout.processState i).pid)
    (ok : ∀ i, (l.processState i).Ok maxReaderEventSize)
    (empty : ∀ i, s.layout.processCnt ≤ i → (l.processState i).events = [])
    (indexed : f.indexed = s.traffic.indexed) (readers : f.readers = s.traffic.readers)
    (source : ∀ i < s.layout.processCnt, ∀ o ∈ (l.processState i).events, ∃ name w,
      ((s.layout.processState i).pid, name) ∈ s.traffic.readers ∧
        (name, w) ∈ s.traffic.indexed ∧ (w, o) ∈ f.pushed)
    (popsOwn : ∀ r ∈ f.popped, ∃ name w, (r.1, name) ∈ s.traffic.readers ∧
      (name, w) ∈ s.traffic.indexed ∧ (w, r.2) ∈ f.pushed) :
    Routed { s with layout := l, refCnt := c, traffic := f } names := by
  refine ⟨topo ▸ h.topo, ⟨cnt ▸ h.numbered.fits, ?_⟩, ?_, ?_, ?_, ?_, ok, ?_, ?_, ?_⟩
  · simpa only [cnt, pid] using h.numbered.pids
  · simpa only [indexed] using h.indexed
  · simpa only [Domain.readers, topo, cnt] using h.entry
  · simpa only [readers, cnt, pid] using h.owner
  · simpa only [Domain.readers, topo, cnt, pid, readers] using h.connected
  · simpa only [Domain.events, cnt] using empty
  · simpa only [Domain.events, cnt, pid, readers, indexed] using source
  · simpa only [PopsOwn, readers, indexed] using popsOwn

/-- `Pop` takes an object out of the own queue. -/
theorem pop (h : Routed s names) {pid : Int} {s' : Domain} (own : OwnIndex s pid)
    (hs : s.step (.pop pid) = some s') : Routed s' names := by
  obtain ⟨idx, lt, pid'⟩ := own
  obtain ⟨k, hk⟩ := Int.eq_ofNat_of_zero_le idx
  rw [hk, Int.toNat_natCast] at lt pid'
  have here := s.layout.getProcessState_eq (lt.trans_le h.numbered.fits)
  simp only [Domain.step, ShmDomain.pop, hk, here, not_lt.mpr (Int.natCast_nonneg k), if_false,
    Option.bind_eq_bind, Option.bind_some, Int.toNat_natCast, Option.map_bind] at hs
  obtain ⟨⟨p', object⟩, hp, hs⟩ := Option.bind_eq_some_iff.mp hs
  cases hs
  obtain ⟨ok, pidEq, events⟩ := (h.queues k).pop hp
  have source : ∀ o ∈ s.events k, ∃ name w, (pid, name) ∈ s.traffic.readers ∧
      (name, w) ∈ s.traffic.indexed ∧ (w, o) ∈ s.traffic.pushed := pid' ▸ h.source k lt
  have all : ∀ i, (s.layout.setProcessState k p').processState i =
      if i = k then p' else s.layout.processState i := by
    intro i
    by_cases e : i = k
    · subst e; simp
    · rw [s.layout.setProcessState_of_ne _ e, if_neg e]
  refine h.requeue rfl rfl (fun i => ?_) (fun i => ?_) (fun i hi => ?_) rfl rfl (fun i hi o ho => ?_)
    fun r hr => ?_
  · rw [all]; split_ifs with e
    · rw [pidEq, e]
    · rfl
  · rw [all]; split_ifs
    · exact ok
    · exact h.queues i
  · rw [all, if_neg (by omega)]
    exact h.empty i hi
  · rw [all] at ho
    split_ifs at ho with e
    · subst e
      exact h.source i hi o (by rw [Domain.events, events]; exact List.mem_cons_of_mem _ ho)
    · exact h.source i hi o ho
  · simp only [Option.toList_some, List.map_cons, List.map_nil, List.singleton_append,
      List.mem_cons] at hr
    rcases hr with rfl | old
    · exact source object (by rw [Domain.events, events]; exact List.mem_cons_self)
    · exact h.popsOwn r old

/-- The loop of `Push` pushes to the readers of the writer slot. -/
theorem push_eq (h : Routed s names) (w object fuel : Nat) :
    ShmDomain.push s.layout s.refCnt w object fuel =
      (s.readers w).foldlM (fun r t => r.1.pushTo r.2 t object fuel) (s.layout, s.refCnt) := by
  have ok := h.topo.slots w
  have loop : ∀ (is : List Nat) (r : ShmDomainLayout × RefCounts),
      (∀ i ∈ is, i < (s.layout.topoState.writerSlotTable w).readerNum) →
      is.foldlM (fun r i =>
        let reader := (s.layout.topoState.writerSlotTable w).readerSlots i
        if reader.isOnline = false then some r
        else r.1.pushTo r.2 reader.processStateIndex object fuel) r =
      is.foldlM (fun r i => r.1.pushTo r.2
        ((s.layout.topoState.writerSlotTable w).readerSlots i).processStateIndex object fuel) r := by
    intro is
    induction is with
    | nil => intro r _; rfl
    | cons i is ih =>
      intro r below
      simp only [List.foldlM_cons, ok.online i (below i (by simp)), Bool.true_eq_false, if_false]
      exact bind_congr fun r' => ih r' fun j hj => below j (List.mem_cons_of_mem _ hj)
  rw [Domain.readers, WriterSlot.readers, List.foldlM_map]
  exact loop _ _ fun i hi => List.mem_range.mp hi

/-- The readers of a name can take an event. -/
theorem targets (h : Routed s names) {pid : Int} {w object fuel : Nat}
    (proper : Proper s (.push pid w object fuel)) : s.layout.Targets (s.readers w) := by
  refine ⟨(h.topo.slots w).nodup, fun t ht => ?_⟩
  obtain ⟨i, rfl, hi⟩ := h.entry w t ht
  exact ⟨i, rfl, hi.trans_le h.numbered.fits, h.queues i, proper.2 _ ht, proper.1 i hi⟩

/-- `Push` puts the object into the queues of the readers. -/
theorem push (h : Routed s names) {pid : Int} {w object fuel : Nat} {s' : Domain}
    (proper : Proper s (.push pid w object fuel))
    (hs : s.step (.push pid w object fuel) = some s') :
    s.layout.Pushed s'.layout (s.readers w) object ∧ Routed s' names := by
  obtain ⟨l, c, pushed, run, stuck⟩ := (h.targets proper).push s.refCnt object
  simp only [Domain.step, h.push_eq] at hs
  split_ifs at hs with guard
  have result : (s.readers w).foldlM (fun r t => r.1.pushTo r.2 t object fuel)
      (s.layout, s.refCnt) = some (l, c) := by
    cases fuel with
    | succ n => exact run n
    | zero =>
      by_cases none : s.readers w = []
      · simpa [none] using run 0
      · rw [stuck none] at hs; cases hs
  rw [result] at hs
  cases hs
  have named : ∃ a, names[w]? = some a :=
    ⟨_, List.getElem?_eq_getElem (h.topo.num ▸ guard.2)⟩
  obtain ⟨a, ha⟩ := named
  have keep : ∀ {o v}, (v, o) ∈ s.traffic.pushed → (v, o) ∈ (w, object) :: s.traffic.pushed :=
    List.mem_cons_of_mem _
  refine ⟨pushed, h.requeue pushed.topoState pushed.processCnt pushed.pid (fun i => ?_)
    (fun i hi => ?_) rfl rfl (fun i hi o ho => ?_) fun r hr => ?_⟩
  · by_cases mem : (i : Int) ∈ s.readers w
    · exact pushed.ok i mem
    · rw [pushed.others i mem]; exact h.queues i
  · have mem : (i : Int) ∉ s.readers w := by
      intro mem
      obtain ⟨j, e, hj⟩ := h.entry w _ mem
      have : i = j := by exact_mod_cast e
      omega
    rw [pushed.others i mem]; exact h.empty i hi
  · by_cases mem : (i : Int) ∈ s.readers w
    · rw [pushed.events i mem, List.mem_append, List.mem_singleton] at ho
      rcases ho with old | rfl
      · obtain ⟨b, v, h1, h2, h3⟩ := h.source i hi o old
        exact ⟨b, v, h1, h2, keep h3⟩
      · exact ⟨a, w, (h.connected w a ha i hi).mp mem, (h.indexed w a).mp ha, List.mem_cons_self⟩
    · rw [pushed.others i mem] at ho
      obtain ⟨b, v, h1, h2, h3⟩ := h.source i hi o ho
      exact ⟨b, v, h1, h2, keep h3⟩
  · obtain ⟨b, v, h1, h2, h3⟩ := h.popsOwn r hr
    exact ⟨b, v, h1, h2, keep h3⟩

/-- Every proper call keeps events on their way. -/
theorem step (h : Routed s names) {op : DomainOp} {s' : Domain} (proper : Proper s op)
    (hs : s.step op = some s') : ∃ names', Routed s' names' := by
  cases op with
  | initialized pid => exact ⟨names, h.initialized hs⟩
  | registerWriter pid name =>
    simp only [Domain.step] at hs
    split_ifs at hs
    obtain eq | ⟨d, w, names', eq, holds, registers, readers⟩ := h.topo.registerWriter name
    · simp only [eq] at hs
      cases hs
      exact ⟨names, h⟩
    · simp only [eq] at hs
      cases hs
      exact ⟨names', (h.register holds registers readers proper).1⟩
  | registerReader pid name =>
    simp only [Domain.step] at hs
    split_ifs at hs
    obtain ⟨own, clear⟩ := proper
    obtain eq | ⟨d, w, names', holds, registers, readers,
        eq | ⟨d', r, eq, holds', -, mine, others⟩⟩ :=
      h.topo.registerReader (s.domain pid).processIdx name <;> simp only [eq] at hs <;> cases hs
    · exact ⟨names, h⟩
    · exact ⟨names', (h.register holds registers readers clear).1⟩
    · obtain ⟨mid, named⟩ := h.register holds registers readers clear
      exact ⟨names', mid.connect holds' named own mine others⟩
  | push pid w object fuel => exact ⟨names, (h.push proper hs).2⟩
  | pop pid => exact ⟨names, h.pop proper hs⟩

/-- A push delivers to the readers of the name. -/
theorem delivers (h : Routed s names) {pid : Int} {name : Name} {w object fuel : Nat}
    (inited : (s.domain pid).inited = true) (indexed : (name, w) ∈ s.traffic.indexed)
    (proper : Proper s (.push pid w object fuel)) : Delivers s pid name w object := by
  have ha := (h.indexed w name).mpr indexed
  refine ⟨?_, fun fuel' s' hs i hi => ?_⟩
  · obtain ⟨l, c, -, run, -⟩ := (h.targets proper).push s.refCnt object
    have guard : (s.domain pid).inited = true ∧ w < s.layout.topoState.writerNum :=
      ⟨inited, h.topo.num ▸ (List.getElem?_eq_some_iff.mp ha).1⟩
    have returns : ∃ s', s.step (.push pid w object 1) = some s' := by
      simp only [Domain.step, if_pos guard, h.push_eq, run 0, Option.map_some]
      exact ⟨_, rfl⟩
    exact ⟨1, returns⟩
  · have proper' : Proper s (.push pid w object fuel') := proper
    obtain ⟨pushed, -⟩ := h.push proper' hs
    have connected := h.connected w name ha i hi
    by_cases mem : (i : Int) ∈ s.readers w
    · rw [if_pos (connected.mp mem)]
      exact pushed.events i mem
    · rw [if_neg fun h => mem (connected.mpr h), List.append_nil, Domain.events,
        pushed.others i mem]
      rfl

end Routed

/-- In every run of proper calls, a push on the writer index of a name delivers to exactly
the processes that read the name, and a process pops only what it reads. -/
theorem routes_of_reach {s : Domain} (h : domainMachine.Reach proper s) :
    (∀ pid name w object fuel, (s.domain pid).inited = true → (name, w) ∈ s.traffic.indexed →
      Proper s (.push pid w object fuel) → Delivers s pid name w object) ∧ PopsOwn s := by
  obtain ⟨names, routed⟩ : ∃ names, Routed s names := by
    refine h.inv (P := fun s => ∃ names, Routed s names) ?_ ?_
    · rintro s ⟨c, rfl⟩
      exact ⟨[], Routed.start c⟩
    · rintro s op s' ⟨names, routed⟩ hs proper
      exact routed.step proper hs
  exact ⟨fun pid name w object fuel inited indexed proper => routed.delivers inited indexed proper,
    routed.popsOwn⟩

/-- The process that is registered first reads the name `a`, and the second one writes it. -/
def firstReads : List DomainOp :=
  [.initialized 7, .initialized 9, .registerReader 7 [97], .registerWriter 9 [97],
    .push 9 0 4096 1, .pop 7, .push 9 0 8192 1]

/-- The reader gets the first object, and the next push is delivered to it. -/
theorem routes_of_reach_firstReads :
    ∃ s, domainMachine.run { layout := ShmDomainLayout.initialized } firstReads = some s ∧
      s.traffic.popped = [(7, 4096)] ∧ s.events 0 = [8192] ∧ s.events 1 = [] ∧
      Delivers s 9 [97] 0 4096 ∧ PopsOwn s := by
  have along : domainMachine.Along proper { layout := ShmDomainLayout.initialized } firstReads := by
    decide +kernel
  have start : domainMachine.start { layout := ShmDomainLayout.initialized } := ⟨_, rfl⟩
  obtain ⟨s, run, reach⟩ := Machine.Reach.of_along (.start start) along
  have seen : (domainMachine.run { layout := ShmDomainLayout.initialized } firstReads).any
      (fun s => decide (s.traffic.popped = [(7, 4096)] ∧ s.events 0 = [8192] ∧ s.events 1 = [] ∧
        ([97], 0) ∈ s.traffic.indexed ∧ (s.domain 9).inited = true ∧
          Proper s (.push 9 0 4096 1))) = true := by decide +kernel
  rw [run, Option.any_some, decide_eq_true_eq] at seen
  obtain ⟨popped, first, second, indexed, inited, proper⟩ := seen
  obtain ⟨delivers, popsOwn⟩ := routes_of_reach reach
  exact ⟨s, run, popped, first, second, delivers 9 [97] 0 4096 1 inited indexed proper, popsOwn⟩

/-- The second process reads the name `a`. -/
def secondReads : List DomainOp :=
  [.initialized 7, .initialized 9, .registerReader 9 [97], .registerWriter 7 [97]]

/-- The second process reads the name, but a push on it does not reach its queue. -/
theorem push_misses_second : ∃ s, domainMachine.Reach Machine.free s ∧
    (s.domain 7).inited = true ∧ ([97], 0) ∈ s.traffic.indexed ∧ NoneFull s ∧
      ¬Delivers s 7 [97] 0 4096 := by
  have start : domainMachine.start { layout := ShmDomainLayout.initialized } := ⟨_, rfl⟩
  have seen : (domainMachine.run { layout := ShmDomainLayout.initialized } secondReads).any
      (fun s => decide ((s.domain 7).inited = true ∧ ([97], 0) ∈ s.traffic.indexed ∧ NoneFull s ∧
        1 < s.layout.processCnt ∧ (s.layout.processState 1).pid = 9 ∧ s.events 1 = [] ∧
        (9, [97]) ∈ s.traffic.readers) &&
        (s.step (.push 7 0 4096 1)).any fun s' => decide (s'.events 1 = [])) = true := by
    decide +kernel
  obtain ⟨s, run, seen⟩ := (Option.any_eq_true ..).mp seen
  obtain ⟨facts, seen⟩ := Bool.and_eq_true_iff.mp seen
  obtain ⟨s', push, after⟩ := (Option.any_eq_true ..).mp seen
  obtain ⟨inited, indexed, noneFull, lt, pid, before, reads⟩ := of_decide_eq_true facts
  refine ⟨s, Machine.Reach.of_run (.start start) run, inited, indexed, noneFull, ?_⟩
  rintro ⟨-, delivers⟩
  have := delivers 1 s' push 1 lt
  rw [pid, if_pos reads, before, of_decide_eq_true after] at this
  cases this

end Fuxi.Shm
