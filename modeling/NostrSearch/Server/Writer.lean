import NostrSearch.Indexer.Checkpoint

/-!
# The writer task

One task of the node takes events off a bounded queue, indexes each, commits on a timer, and when
it is told to stop empties the queue and commits once more. The ids of what it indexed wait in
`IndexedIds` for the commit that makes the documents searchable; only then are they recorded in the
id store, which is what an ingest skips by.

The task is thread `w` of the shard manager. The other threads do what they like there; so do the
producers. Folding and indexing may panic, which the task catches; commits and flushes may fail; and
the process may die at any point, which leaves the disk and the id store.

`recorded_ids_durable` says that the store never gets ahead of the index, `stopped_accounts` where
every event is that was sent when the task has stopped, and `quiet_durable` when all that was
indexed is searchable in a quiet period. The pipeline lock only rules out interleavings, and what an
operator has the task do to the analyses touches neither documents nor ids; neither is in the model.
-/

namespace NostrSearch.Server

open NostrSearch.Core NostrSearch.Lib NostrSearch.Indexer

/-- Where the writer task is. `draining` says whether it has been told to stop, or has no producer
left. -/
inductive WriterPc
  /-- at its `select!`, or at a `try_recv` of the drain -/
  | turn (draining : Bool)
  /-- in `process_guarded`, before `index_event` -/
  | fold (ev : NostrEvent) (draining : Bool)
  /-- inside `index_event` -/
  | indexing (ev : NostrEvent) (draining : Bool)
  /-- `index_event` has answered, `process` has not returned yet -/
  | refresh (ev : NostrEvent) (indexed : Bool) (draining : Bool)
  /-- inside the `commit_all` of a tick, or of `finish` -/
  | committing (last : Bool)
  /-- before `IndexedIds::flush` -/
  | flush (last : Bool)
  /-- the task has ended; whether its last commit succeeded -/
  | stopped (committed : Bool)

structure WriterOptions where
  shards : ShardWriterConfig
  queueSize : ℕ

/-- The writer task and what it works on. `processed` is a history variable: what the task has taken
off the queue and gone through, each with whether `process_guarded` said it was indexed. -/
structure WriterTask (T : Type) where
  manager : Manager T
  queue : List NostrEvent
  pc : WriterPc
  dirty : Bool
  /-- the `IndexedIds` -/
  indexed : List Bytes32
  idStore : Option (Finset Bytes32)
  processed : List (NostrEvent × Bool)

inductive WriterAct (T : Type)
  /-- a producer's send goes through -/
  | send (ev : NostrEvent)
  /-- the task takes an event off the queue -/
  | recv
  /-- the commit timer fires -/
  | tick
  /-- the task sees the shutdown signal, or that the last sender is gone -/
  | shutdown
  /-- the task takes its next step -/
  | go (o : Oracle)
  /-- what the task runs under `catch_unwind` panics -/
  | panic
  /-- another thread does something in the shard manager -/
  | other (a : Act T)
  /-- the process dies and is started again -/
  | crash

/-- The event a task has taken and is not through with. -/
def WriterPc.inHand : WriterPc → List NostrEvent
  | .fold ev _ | .indexing ev _ | .refresh ev _ _ => [ev]
  | _ => []

/-- The thread that takes a step of the shard manager. -/
def actor {T : Type} : Act T → T
  | .call t _ => t
  | .go t _ => t

namespace WriterTask

variable {T : Type} [DecidableEq T] [Fintype T]

/-- `IndexedIds::note`. -/
def note (indexed : List Bytes32) (ev : NostrEvent) : List Bytes32 :=
  indexed ++ (hex32 ev.id).toList

/-- `IndexedIds::flush`, with whether the store's write fails. -/
def flushIds (indexed : List Bytes32) (store : Option (Finset Bytes32)) (fails : Bool) :
    List Bytes32 × Option (Finset Bytes32) :=
  if indexed = [] then (indexed, store)
  else
    match store with
    | some ids => if fails then (indexed, store) else ([], some (ids ∪ indexed.toFinset))
    | none => ([], none)

/-- The task is through with an event. -/
def through (s : WriterTask T) (ev : NostrEvent) (ok draining : Bool) : WriterTask T :=
  { s with
    pc := .turn draining
    dirty := s.dirty || !draining
    indexed := if ok then note s.indexed ev else s.indexed
    processed := s.processed ++ [(ev, ok)] }

/-- A panic unwinds out of whatever thread `w` was doing in the manager, and drops its handles. -/
def unwind (m : Manager T) (w : T) : Manager T :=
  { m with threads := Function.update m.threads w .idle }

/-- Let the task call the manager. -/
def callAt (opts : WriterOptions) (w : T) (s : WriterTask T) (c : Call) (pc : WriterPc) :
    Option (WriterTask T) :=
  (Manager.step opts.shards s.manager (.call w c)).map fun m => { s with manager := m, pc := pc }

/-- Let the task move inside the call it is making on the manager. -/
def inManager (opts : WriterOptions) (w : T) (s : WriterTask T) (o : Oracle) :
    Option (WriterTask T) :=
  (Manager.step opts.shards s.manager (.go w o)).map fun m => { s with manager := m }

/-- A commit is over. A tick that failed is not dirty any more, either. -/
def afterCommit (s : WriterTask T) (last ok : Bool) : WriterTask T :=
  if ok then { s with pc := .flush last }
  else if last then { s with pc := .stopped false }
  else { s with pc := .turn false, dirty := false }

def stepTask (opts : WriterOptions) (w : T) (s : WriterTask T) (o : Oracle) :
    Option (WriterTask T) :=
  match s.pc with
  | .turn true => if s.queue = [] then s.callAt opts w .commitAll (.committing true) else none
  | .turn false => none
  | .fold ev draining => s.callAt opts w (.indexEvent ev) (.indexing ev draining)
  | .indexing ev draining =>
    match s.manager.threads w with
    | .returned _ (.shard _) => some { s with pc := .refresh ev true draining }
    | .returned _ _ => some { s with pc := .refresh ev false draining }
    | _ => s.inManager opts w o
  | .refresh ev ok draining => some (s.through ev ok draining)
  | .committing last =>
    match s.manager.threads w with
    | .returned _ .unit => some (s.afterCommit last true)
    | .returned _ _ => some (s.afterCommit last false)
    | _ => s.inManager opts w o
  | .flush last =>
    let flushed := flushIds s.indexed s.idStore o.fail.isSome
    some { s with
      indexed := flushed.1
      idStore := flushed.2
      pc := if last then .stopped true else .turn false
      dirty := s.dirty && last }
  | .stopped _ => none

/-- The process starts on what is on disk. -/
def start (disk : ShardId → List NostrEvent) (idStore : Option (Finset Bytes32)) : WriterTask T :=
  { manager := { (Manager.init : Manager T) with
      shards := { (Manager.init : Manager T).shards with disk := disk } }
    queue := []
    pc := .turn false
    dirty := false
    indexed := []
    idStore := idStore
    processed := [] }

/-- The receiver lives as long as the task, so a send goes through until the task has ended. A timer
may fire with events in the queue: they can come after `select!` has looked there. -/
def step (opts : WriterOptions) (w : T) (s : WriterTask T) : WriterAct T → Option (WriterTask T)
  | .send ev =>
    match s.pc with
    | .stopped _ => none
    | _ =>
      if s.queue.length < opts.queueSize then some { s with queue := s.queue ++ [ev] } else none
  | .recv =>
    match s.pc, s.queue with
    | .turn draining, ev :: queue => some { s with queue := queue, pc := .fold ev draining }
    | _, _ => none
  | .tick =>
    match s.pc with
    | .turn false => if s.dirty then s.callAt opts w .commitAll (.committing false) else some s
    | _ => none
  | .shutdown =>
    match s.pc with
    | .turn false => some { s with pc := .turn true }
    | _ => none
  | .go o => s.stepTask opts w o
  | .panic =>
    match s.pc with
    | .fold ev draining | .indexing ev draining | .refresh ev _ draining =>
      some ({ s with manager := unwind s.manager w }.through ev false draining)
    | _ => none
  | .other a =>
    if actor a = w then none
    else (Manager.step opts.shards s.manager a).map fun m => { s with manager := m }
  | .crash => some (start s.manager.shards.disk s.idStore)

/-! ## Where the events are -/

/-- The events the task believes to be indexed. -/
def indexedEvents (s : WriterTask T) : List NostrEvent :=
  (s.processed.filter Prod.snd).map Prod.fst

/-- What the task has been sent, by how far it has got with it. -/
def accounted (s : WriterTask T) : List NostrEvent :=
  s.processed.map Prod.fst ++ s.pc.inHand ++ s.queue

/-- The events of the sends that went through. -/
def sends (as : List (WriterAct T)) : List NostrEvent :=
  as.filterMap fun
    | .send ev => some ev
    | _ => none

variable {opts : WriterOptions} {w : T} {s s' : WriterTask T}

omit [DecidableEq T] [Fintype T] in
theorem indexedEvents_through (ev : NostrEvent) (ok draining : Bool) :
    (s.through ev ok draining).indexedEvents = s.indexedEvents ++ (if ok then [ev] else []) := by
  cases ok <;> simp [indexedEvents, through]

omit [DecidableEq T] [Fintype T] in
theorem accounted_through {ev : NostrEvent} (h : s.pc.inHand = [ev]) (ok draining : Bool) :
    (s.through ev ok draining).accounted = s.accounted := by
  rw [accounted, accounted, h]
  simp [through, WriterPc.inHand]

omit [DecidableEq T] [Fintype T] in
/-- A step that leaves the queue and the history alone, and has the same event in hand. -/
theorem accounted_of_same {m : Manager T} {pc : WriterPc} {dirty : Bool} {indexed : List Bytes32}
    {idStore : Option (Finset Bytes32)} (h : pc.inHand = s.pc.inHand) :
    ({ s with
      manager := m, pc := pc, dirty := dirty, indexed := indexed
      idStore := idStore } : WriterTask T).accounted = s.accounted := by
  simp only [accounted, h]

theorem accounted_callAt {c : Call} {pc : WriterPc} (h : s.callAt opts w c pc = some s')
    (hpc : pc.inHand = s.pc.inHand) : s'.accounted = s.accounted := by
  obtain ⟨m, -, rfl⟩ := Option.map_eq_some_iff.mp h
  exact accounted_of_same hpc

theorem accounted_inManager {o : Oracle} (h : s.inManager opts w o = some s') :
    s'.accounted = s.accounted := by
  obtain ⟨m, -, rfl⟩ := Option.map_eq_some_iff.mp h
  rfl

omit [DecidableEq T] [Fintype T] in
theorem accounted_afterCommit {last : Bool} (h : s.pc = .committing last) (ok : Bool) :
    (s.afterCommit last ok).accounted = s.accounted := by
  cases ok <;> cases last <;> simp [accounted, afterCommit, h, WriterPc.inHand]

theorem accounted_stepTask {o : Oracle} (h : s.stepTask opts w o = some s') :
    s'.accounted = s.accounted := by
  unfold stepTask at h
  split at h
  case h_1 hpc =>
    split at h
    · exact accounted_callAt h (by rw [hpc]; rfl)
    · cases h
  case h_2 => cases h
  case h_3 ev draining hpc => exact accounted_callAt h (by rw [hpc]; rfl)
  case h_4 ev draining hpc =>
    split at h
    · cases h
      exact accounted_of_same (by rw [hpc]; rfl)
    · cases h
      exact accounted_of_same (by rw [hpc]; rfl)
    · exact accounted_inManager h
  case h_5 ev ok draining hpc =>
    cases h
    exact accounted_through (by rw [hpc]; rfl) ok draining
  case h_6 last hpc =>
    split at h
    · cases h
      exact accounted_afterCommit hpc true
    · cases h
      exact accounted_afterCommit hpc false
    · exact accounted_inManager h
  case h_7 last hpc =>
    cases h
    refine accounted_of_same ?_
    rw [hpc]
    cases last <;> rfl
  case h_8 => cases h

/-- In one life of the process, a step takes nothing up but what is sent, and drops nothing. -/
theorem accounted_step {a : WriterAct T} (h : step opts w s a = some s') (ha : a ≠ .crash) :
    s'.accounted = s.accounted ++ sends [a] := by
  cases a with
  | send ev =>
    simp only [step] at h
    split at h
    · cases h
    · split at h <;> cases h
      simp [accounted, sends]
  | recv =>
    simp only [step] at h
    split at h <;> cases h
    case h_1 draining ev queue hpc hqueue =>
      simp [accounted, sends, hpc, hqueue, WriterPc.inHand]
  | tick =>
    simp only [step] at h
    split at h
    case h_1 hpc =>
      split at h
      · rw [accounted_callAt h (by rw [hpc]; rfl)]
        exact (List.append_nil _).symm
      · cases h
        exact (List.append_nil _).symm
    case h_2 => cases h
  | shutdown =>
    simp only [step] at h
    split at h <;> cases h
    case h_1 hpc => simp [accounted, sends, hpc, WriterPc.inHand]
  | go o =>
    rw [accounted_stepTask h]
    exact (List.append_nil _).symm
  | panic =>
    simp only [step] at h
    split at h <;> cases h
    all_goals
      rename_i hpc
      rw [accounted_through (by simp only [hpc]; rfl)]
      exact (List.append_nil _).symm
  | other a =>
    simp only [step] at h
    split at h
    · cases h
    · obtain ⟨m, -, rfl⟩ := Option.map_eq_some_iff.mp h
      exact (List.append_nil _).symm
  | crash => exact absurd rfl ha

/-- What is so of the task at a place: the call it is in, and how far what it indexed has got. -/
def PcOk (w : T) (m : Manager T) (events : List NostrEvent) : WriterPc → Prop
  | .indexing ev _ => (m.threads w).call = some (.indexEvent ev)
  | .refresh ev true _ => ev ∈ m.acked
  | .committing _ => ∀ ev ∈ events, Manager.Due ev m.shards m.acked (m.threads w)
  | .flush _ | .stopped true => ∀ ev ∈ events, m.shards.Durable ev
  | _ => True

/-- `before` is what the id store had when the process was first started. -/
structure Inv (before : Finset Bytes32) (w : T) (s : WriterTask T) : Prop where
  manager : s.manager.Inv
  answered : s.manager.Answered
  acked : ∀ ev ∈ s.indexedEvents, ev ∈ s.manager.acked
  pc : PcOk w s.manager s.indexedEvents s.pc
  noted : ∀ id ∈ s.indexed, ∃ ev ∈ s.indexedEvents, claimId ev = id
  kept : ∀ ids, s.idStore = some ids → ∀ ev ∈ s.indexedEvents, ∀ id ∈ hex32 ev.id,
    id ∈ s.indexed ∨ id ∈ ids
  idStore : ∀ ids, s.idStore = some ids → ∀ id ∈ ids,
    id ∈ before ∨ ∃ ev, claimId ev = id ∧ s.manager.shards.Durable ev

/-- Eviction loses nothing. -/
def ClosesClean (w : T) (s : WriterTask T) : WriterAct T → Prop
  | .go o => s.manager.ClosesClean (.go w o)
  | .other a => s.manager.ClosesClean a
  | _ => True

variable {before : Finset Bytes32}

theorem claimId_of_hex32 {ev : NostrEvent} {id : Bytes32} (h : id ∈ hex32 ev.id) :
    claimId ev = id := by
  rw [claimId, Option.mem_def.mp h, Option.getD_some]

omit [DecidableEq T] [Fintype T] in
theorem inv_start {disk : ShardId → List NostrEvent} {idStore : Option (Finset Bytes32)}
    (h : ∀ ids, idStore = some ids → ∀ id ∈ ids, id ∈ before ∨
      ∃ ev, claimId ev = id ∧ (start disk idStore : WriterTask T).manager.shards.Durable ev) :
    (start disk idStore : WriterTask T).Inv before w where
  manager := ⟨Manager.registered_init, fun _ => trivial, List.forall_mem_nil _⟩
  answered := by rintro t ev id ⟨⟩
  acked := List.forall_mem_nil _
  pc := trivial
  noted := List.forall_mem_nil _
  kept := fun _ _ => List.forall_mem_nil _
  idStore := h

omit [DecidableEq T] [Fintype T] in
/-- The manager has moved, and with it perhaps the task. -/
theorem Inv.withManager (hs : s.Inv before w) {m : Manager T} {pc : WriterPc} (hm : m.Inv)
    (hanswered : m.Answered) (hacked : ∀ ev ∈ s.manager.acked, ev ∈ m.acked)
    (hdurable : ∀ ev, s.manager.shards.Durable ev → m.shards.Durable ev)
    (hpc : PcOk w m s.indexedEvents pc) :
    ({ s with manager := m, pc := pc } : WriterTask T).Inv before w where
  manager := hm
  answered := hanswered
  acked := fun ev hev => hacked ev (hs.acked ev hev)
  pc := hpc
  noted := hs.noted
  kept := hs.kept
  idStore := fun ids hids id hid =>
    (hs.idStore ids hids id hid).imp_right fun ⟨ev, hev, hd⟩ => ⟨ev, hev, hdurable ev hd⟩

/-- A step in the manager that starts no call of the task leaves the task what it has. -/
theorem pcOk_manager {cfg : ShardWriterConfig} {a : Act T} {m m' : Manager T}
    {events : List NostrEvent} {pc : WriterPc} (hm : m.Inv) (hne : ∀ c, a ≠ .call w c)
    (h : Manager.step cfg m a = some m') (hpc : PcOk w m events pc) : PcOk w m' events pc := by
  cases pc with
  | indexing ev draining =>
    rw [PcOk, Manager.call_step h hne]
    exact hpc
  | refresh ev ok draining =>
    cases ok with
    | true => exact Manager.acked_step h ev hpc
    | false => trivial
  | committing last => exact fun ev hev => Manager.due_step hm (hpc ev hev) hne h
  | flush last => exact fun ev hev => Manager.durable_step h (hpc ev hev)
  | stopped committed =>
    cases committed with
    | true => exact fun ev hev => Manager.durable_step h (hpc ev hev)
    | false => trivial
  | _ => trivial

theorem inv_manager {cfg : ShardWriterConfig} {a : Act T} {m : Manager T} (hs : s.Inv before w)
    (hclean : s.manager.ClosesClean a) (hne : ∀ c, a ≠ .call w c)
    (h : Manager.step cfg s.manager a = some m) :
    ({ s with manager := m } : WriterTask T).Inv before w := by
  have hpc : PcOk w m s.indexedEvents s.pc := pcOk_manager hs.manager hne h hs.pc
  exact hs.withManager (Manager.inv_step hs.manager hclean h)
    (Manager.answered_step hs.answered h) (Manager.acked_step h)
    (fun _ => Manager.durable_step h) hpc

/-- The task calls the manager. -/
theorem inv_callAt {c : Call} {pc : WriterPc} (hs : s.Inv before w)
    (hpc : ∀ m : Manager T, m.threads w = .called c → m.acked = s.manager.acked →
      PcOk w m s.indexedEvents pc)
    (h : s.callAt opts w c pc = some s') : s'.Inv before w := by
  obtain ⟨m, hstep, rfl⟩ := Option.map_eq_some_iff.mp h
  have hclean : s.manager.ClosesClean (.call w c) := trivial
  refine hs.withManager (Manager.inv_step hs.manager hclean hstep)
    (Manager.answered_step hs.answered hstep) (Manager.acked_step hstep)
    (fun _ => Manager.durable_step hstep) ?_
  simp only [Manager.step] at hstep
  split at hstep <;> cases hstep
  exact hpc _ (Function.update_self w _ _) rfl

theorem inv_inManager {o : Oracle} (hs : s.Inv before w)
    (hclean : s.manager.ClosesClean (.go w o)) (h : s.inManager opts w o = some s') :
    s'.Inv before w := by
  obtain ⟨m, hstep, rfl⟩ := Option.map_eq_some_iff.mp h
  exact inv_manager hs hclean (by rintro c ⟨⟩) hstep

omit [DecidableEq T] [Fintype T] in
/-- The task goes on at a place where nothing is to be relied on. -/
theorem Inv.goto (hs : s.Inv before w) {pc : WriterPc} (dirty : Bool)
    (hpc : PcOk w s.manager s.indexedEvents pc) :
    ({ s with pc := pc, dirty := dirty } : WriterTask T).Inv before w :=
  ⟨hs.manager, hs.answered, hs.acked, hpc, hs.noted, hs.kept, hs.idStore⟩

omit [DecidableEq T] [Fintype T] in
/-- The task is through with an event, which is acknowledged if it was indexed. -/
theorem inv_through (hs : s.Inv before w) {ev : NostrEvent} {ok : Bool} (draining : Bool)
    (hev : ok = true → ev ∈ s.manager.acked) : (s.through ev ok draining).Inv before w := by
  cases ok with
  | false =>
    have hevents : (s.through ev false draining).indexedEvents = s.indexedEvents := by
      rw [indexedEvents_through]
      exact List.append_nil _
    refine ⟨hs.manager, hs.answered, ?_, trivial, ?_, ?_, hs.idStore⟩
    · rw [hevents]
      exact hs.acked
    · rw [hevents]
      exact hs.noted
    · rw [hevents]
      exact hs.kept
  | true =>
    have hevents : (s.through ev true draining).indexedEvents = s.indexedEvents ++ [ev] := by
      rw [indexedEvents_through]
      rfl
    refine ⟨hs.manager, hs.answered, ?_, trivial, ?_, ?_, hs.idStore⟩
    · rw [hevents]
      exact List.forall_mem_append.mpr
        ⟨hs.acked, List.forall_mem_singleton.mpr (hev rfl)⟩
    · intro id hid
      rw [hevents]
      rcases List.mem_append.mp hid with hid | hid
      · obtain ⟨other, hother, hclaim⟩ := hs.noted id hid
        exact ⟨other, List.mem_append_left _ hother, hclaim⟩
      · exact ⟨ev, List.mem_append_right _ (List.mem_singleton_self ev),
          claimId_of_hex32 (Option.mem_toList.mp hid)⟩
    · intro ids hids
      rw [hevents]
      refine List.forall_mem_append.mpr ⟨?_, List.forall_mem_singleton.mpr ?_⟩
      · intro other hother id hid
        exact (hs.kept ids hids other hother id hid).imp_left (List.mem_append_left _)
      · -- its id has just been noted
        exact fun id hid => Or.inl (List.mem_append_right _ (Option.mem_toList.mpr hid))

omit [Fintype T] in
/-- What an unwound thread leaves behind. -/
theorem inv_unwind {m : Manager T} (hm : m.Inv) : (unwind m w).Inv := by
  refine ⟨⟨?_, hm.registered.filed⟩, ?_, hm.acked⟩
  · intro t c hc
    by_cases ht : t = w
    · subst ht
      simp only [unwind, Manager.cells, Function.update_self] at hc
      exact absurd hc (Multiset.notMem_zero c)
    · simp only [unwind, Manager.cells, Function.update_of_ne ht] at hc
      exact hm.registered.held t c hc
  · exact (Function.forall_update_iff m.threads fun _ => Indexer.PcOk m.shards).mpr
      ⟨trivial, fun t _ => hm.threads t⟩

omit [Fintype T] in
theorem answered_unwind {m : Manager T} (hm : m.Answered) : (unwind m w).Answered := by
  intro t ev id ht
  by_cases htw : t = w
  · subst htw
    simp only [unwind, Function.update_self] at ht
    cases ht
  · simp only [unwind, Function.update_of_ne htw] at ht
    exact hm t ev id ht

omit [Fintype T] in
theorem inv_panic (hs : s.Inv before w) (ev : NostrEvent) (draining : Bool) :
    ({ s with manager := unwind s.manager w }.through ev false draining).Inv before w := by
  have hunwound : ({ s with manager := unwind s.manager w, pc := .turn draining } :
      WriterTask T).Inv before w :=
    hs.withManager (inv_unwind hs.manager) (answered_unwind hs.answered) (fun _ hev => hev)
      (fun _ hd => hd) trivial
  exact inv_through hunwound draining (by rintro ⟨⟩)

omit [DecidableEq T] [Fintype T] in
/-- `IndexedIds::flush`, once what was indexed is on disk. -/
theorem inv_flushIds (hs : s.Inv before w)
    (hd : ∀ ev ∈ s.indexedEvents, s.manager.shards.Durable ev)
    (fails : Bool) {pc : WriterPc} (dirty : Bool) (hpc : PcOk w s.manager s.indexedEvents pc) :
    ({ s with
      indexed := (flushIds s.indexed s.idStore fails).1
      idStore := (flushIds s.indexed s.idStore fails).2
      pc := pc
      dirty := dirty } : WriterTask T).Inv before w := by
  have hsame := hs.goto dirty hpc
  unfold flushIds
  split
  case isTrue => exact hsame
  case isFalse =>
    split
    case h_1 ids hids =>
      cases fails with
      | true => exact hsame
      | false =>
        refine ⟨hs.manager, hs.answered, hs.acked, hpc, List.forall_mem_nil _, ?_, ?_⟩
        · rintro _ ⟨⟩ ev hev id hid
          refine Or.inr (Finset.mem_union.mpr ?_)
          rcases hs.kept ids hids ev hev id hid with hnoted | hold
          · exact Or.inr (List.mem_toFinset.mpr hnoted)
          · exact Or.inl hold
        · rintro _ ⟨⟩ id hid
          rcases Finset.mem_union.mp hid with hold | hnew
          · exact hs.idStore ids hids id hold
          · -- recorded now, and on disk since the commit
            obtain ⟨ev, hev, hclaim⟩ := hs.noted id (List.mem_toFinset.mp hnew)
            exact Or.inr ⟨ev, hclaim, hd ev hev⟩
    case h_2 =>
      exact ⟨hs.manager, hs.answered, hs.acked, hpc, List.forall_mem_nil _, by rintro _ ⟨⟩,
        by rintro _ ⟨⟩⟩

theorem inv_stepTask {o : Oracle} (hs : s.Inv before w) (hclean : s.manager.ClosesClean (.go w o))
    (h : s.stepTask opts w o = some s') : s'.Inv before w := by
  have hpc := hs.pc
  unfold stepTask at h
  split at h
  case h_1 =>
    split at h
    · refine inv_callAt hs ?_ h
      intro m hcalled hacked ev hev
      rw [hcalled, hacked]
      exact hs.acked ev hev
    · cases h
  case h_2 => cases h
  case h_3 ev draining heq =>
    refine inv_callAt hs ?_ h
    intro m hcalled _
    rw [PcOk, hcalled]
    rfl
  case h_4 ev draining heq =>
    rw [heq] at hpc
    split at h
    case h_1 c id hret =>
      cases h
      rw [PcOk, hret, Pc.call, Option.some.injEq] at hpc
      subst hpc
      exact hs.goto s.dirty (hs.answered w ev id hret)
    case h_2 =>
      cases h
      exact hs.goto s.dirty trivial
    case h_3 => exact inv_inManager hs hclean h
  case h_5 ev ok draining heq =>
    cases h
    rw [heq] at hpc
    refine inv_through hs draining ?_
    rintro rfl
    exact hpc
  case h_6 last heq =>
    rw [heq] at hpc
    split at h
    case h_1 c hret =>
      cases h
      -- `commit_all` has answered `Ok`: what was due is on disk
      refine hs.goto s.dirty fun ev hev => ?_
      have hdue := hpc ev hev
      rw [hret] at hdue
      cases c with
      | commitAll => exact hdue
      | _ => exact hdue.elim
    case h_2 =>
      cases h
      cases last <;> exact hs.goto _ trivial
    case h_3 => exact inv_inManager hs hclean h
  case h_7 last heq =>
    cases h
    rw [heq] at hpc
    refine inv_flushIds hs hpc o.fail.isSome _ ?_
    cases last with
    | true => exact hpc
    | false => trivial
  case h_8 => cases h

theorem inv_step {a : WriterAct T} (hs : s.Inv before w) (hok : s.ClosesClean w a)
    (h : step opts w s a = some s') : s'.Inv before w := by
  cases a with
  | send ev =>
    simp only [step] at h
    split at h
    · cases h
    · split at h <;> cases h
      exact ⟨hs.manager, hs.answered, hs.acked, hs.pc, hs.noted, hs.kept, hs.idStore⟩
  | recv =>
    simp only [step] at h
    split at h <;> cases h
    exact ⟨hs.manager, hs.answered, hs.acked, trivial, hs.noted, hs.kept, hs.idStore⟩
  | tick =>
    simp only [step] at h
    split at h
    · split at h
      · refine inv_callAt hs ?_ h
        intro m hcalled hacked ev hev
        rw [hcalled, hacked]
        exact hs.acked ev hev
      · cases h
        exact hs
    · cases h
  | shutdown =>
    simp only [step] at h
    split at h <;> cases h
    exact hs.goto s.dirty trivial
  | go o => exact inv_stepTask hs hok h
  | panic =>
    simp only [step] at h
    split at h <;> cases h
    all_goals exact inv_panic hs _ _
  | other a =>
    simp only [step] at h
    split at h
    case isTrue => cases h
    case isFalse hne =>
      obtain ⟨m, hstep, rfl⟩ := Option.map_eq_some_iff.mp h
      exact inv_manager hs hok (by rintro c rfl; exact hne rfl) hstep
  | crash =>
    cases h
    exact inv_start hs.idStore

omit [DecidableEq T] [Fintype T] in
theorem inv_started (disk : ShardId → List NostrEvent) (before : Finset Bytes32) (w : T) :
    (start disk (some before) : WriterTask T).Inv before w := by
  refine inv_start ?_
  rintro _ ⟨⟩ id hid
  exact Or.inl hid

omit [DecidableEq T] [Fintype T] in
theorem mem_indexedEvents {ev : NostrEvent} (h : (ev, true) ∈ s.processed) :
    ev ∈ s.indexedEvents :=
  List.mem_map_of_mem (f := Prod.fst) (List.mem_filter.mpr ⟨h, rfl⟩)

/-- **The store never gets ahead of the index.** Whatever the producers and the other threads do,
whatever fails, panics or dies: as long as eviction loses nothing, an id in the store was there from
the start, or its document is on disk. -/
theorem recorded_ids_durable (opts : WriterOptions) (w : T) (disk : ShardId → List NostrEvent)
    (before : Finset Bytes32) (as : List (WriterAct T)) (s : WriterTask T)
    (hrun : run (step opts w) (start disk (some before)) as = some s)
    (hclean : Along (step opts w) (ClosesClean w) (start disk (some before)) as) :
    ∀ ids, s.idStore = some ids → ∀ id ∈ ids,
      id ∈ before ∨ ∃ ev, claimId ev = id ∧ s.manager.shards.Durable ev :=
  (run_invariant (fun _ _ _ => inv_step) (inv_started disk before w) hclean hrun).idStore

/-! ## Stopping -/

/-- The task has found the queue empty, and is in its last commit or past it. -/
def finishing : WriterPc → Bool
  | .committing true | .flush true | .stopped _ => true
  | _ => false

/-- The task has not been told to stop. -/
def live : WriterPc → Bool
  | .turn draining | .fold _ draining | .indexing _ draining | .refresh _ _ draining => !draining
  | .committing last | .flush last => !last
  | .stopped _ => false

/-- The commit of a tick does not fail. -/
def Commits (w : T) (s : WriterTask T) : WriterAct T → Prop
  | .go _ => s.pc = .committing false → ∀ c r, s.manager.threads w = .returned c r → r = .unit
  | _ => True

/-- With nothing to commit, all that was indexed is on disk. -/
def Settled (s : WriterTask T) : Prop :=
  live s.pc = true → s.dirty = false → ∀ ev ∈ s.indexedEvents, s.manager.shards.Durable ev

theorem settled_callAt {c : Call} {pc : WriterPc} (hs : s.Settled) (hpc : live pc = live s.pc)
    (h : s.callAt opts w c pc = some s') : s'.Settled := by
  obtain ⟨m, hstep, rfl⟩ := Option.map_eq_some_iff.mp h
  intro hlive hclean ev hev
  rw [hpc] at hlive
  exact Manager.durable_step hstep (hs hlive hclean ev hev)

theorem settled_inManager {o : Oracle} (hs : s.Settled) (h : s.inManager opts w o = some s') :
    s'.Settled := by
  obtain ⟨m, hstep, rfl⟩ := Option.map_eq_some_iff.mp h
  exact fun hlive hclean ev hev => Manager.durable_step hstep (hs hlive hclean ev hev)

theorem settled_stepTask {o : Oracle} (hinv : s.Inv before w) (hs : s.Settled)
    (hok : s.Commits w (.go o)) (h : s.stepTask opts w o = some s') : s'.Settled := by
  unfold stepTask at h
  split at h
  case h_1 hpc =>
    split at h
    · exact settled_callAt hs (by rw [hpc]; rfl) h
    · cases h
  case h_2 => cases h
  case h_3 ev draining hpc => exact settled_callAt hs (by rw [hpc]; rfl) h
  case h_4 ev draining hpc =>
    unfold Settled at hs
    rw [hpc] at hs
    split at h
    · cases h
      exact hs
    · cases h
      exact hs
    · exact settled_inManager (by rwa [Settled, hpc]) h
  case h_5 ev ok draining hpc =>
    cases h
    intro hlive hclean
    -- an event makes the task dirty until it commits
    simp only [through, live, Bool.not_eq_true'] at hlive
    simp [through, hlive] at hclean
  case h_6 last hpc =>
    cases last with
    | false =>
      unfold Settled at hs
      rw [hpc] at hs
      split at h
      case h_1 =>
        cases h
        exact hs
      case h_2 c r hunit hret => exact absurd (hok hpc c r hret) hunit
      case h_3 => exact settled_inManager (by rwa [Settled, hpc]) h
    | true =>
      unfold Settled at hs
      rw [hpc] at hs
      split at h
      · cases h
        exact hs
      · cases h
        exact hs
      · exact settled_inManager (by rwa [Settled, hpc]) h
  case h_7 last hpc =>
    cases h
    have hdurable := hinv.pc
    rw [hpc] at hdurable
    exact fun _ _ => hdurable
  case h_8 => cases h

theorem settled_step {a : WriterAct T} (hinv : s.Inv before w) (hs : s.Settled)
    (hok : s.Commits w a) (h : step opts w s a = some s') : s'.Settled := by
  cases a with
  | send ev =>
    simp only [step] at h
    split at h
    · cases h
    · split at h <;> cases h
      exact hs
  | recv =>
    simp only [step] at h
    split at h <;> cases h
    case h_1 draining ev queue hpc hqueue =>
      unfold Settled at hs
      rw [hpc] at hs
      exact hs
  | tick =>
    simp only [step] at h
    split at h
    case h_1 hpc =>
      split at h
      · exact settled_callAt hs (by rw [hpc]; rfl) h
      · cases h
        exact hs
    case h_2 => cases h
  | shutdown =>
    simp only [step] at h
    split at h <;> cases h
    rintro ⟨⟩
  | go o => exact settled_stepTask hinv hs hok h
  | panic =>
    simp only [step] at h
    split at h <;> cases h
    all_goals
      rename_i draining _
      intro hlive hclean
      simp only [through, live, Bool.not_eq_true'] at hlive
      simp [through, hlive] at hclean
  | other a =>
    simp only [step] at h
    split at h
    · cases h
    · obtain ⟨m, hstep, rfl⟩ := Option.map_eq_some_iff.mp h
      exact fun hlive hclean ev hev => Manager.durable_step hstep (hs hlive hclean ev hev)
  | crash =>
    cases h
    exact fun _ _ => List.forall_mem_nil _

/-- **Quiet means searchable.** As long as no commit of a tick fails and eviction loses nothing:
whenever the task waits for events with nothing to commit, every event it has indexed in this life
is on disk. -/
theorem quiet_durable (opts : WriterOptions) (w : T) (disk : ShardId → List NostrEvent)
    (before : Finset Bytes32) (as : List (WriterAct T)) (s : WriterTask T)
    (hrun : run (step opts w) (start disk (some before)) as = some s)
    (hclean : Along (step opts w) (ClosesClean w) (start disk (some before)) as)
    (hcommits : Along (step opts w) (Commits w) (start disk (some before)) as)
    (hquiet : s.pc = .turn false) (hdirty : s.dirty = false) :
    ∀ ev, (ev, true) ∈ s.processed → s.manager.shards.Durable ev := by
  have hsettled : (start disk (some before) : WriterTask T).Settled :=
    fun _ _ => List.forall_mem_nil _
  have hs := (@run_invariant _ _ _ _ (fun s : WriterTask T => s.Inv before w ∧ s.Settled)
    (fun _ _ _ hs hok hstep => ⟨inv_step hs.1 hok.1 hstep, settled_step hs.1 hs.2 hok.2 hstep⟩)
    _ _ _ ⟨inv_started disk before w, hsettled⟩ (hclean.and hcommits) hrun).2
  exact fun ev hev => hs (by rw [hquiet]; rfl) hdirty ev (mem_indexedEvents hev)

/-! ## A run of the task -/

/-- Nothing is queued in a shard that is closed. -/
def closesEmpty (w : T) (s : WriterTask T) : WriterAct T → Bool
  | .go o => s.manager.closesEmpty (.go w o)
  | .other a => s.manager.closesEmpty a
  | _ => true

omit [DecidableEq T] in
theorem closesClean_of_closesEmpty {a : WriterAct T}
    (h : s.closesEmpty w a = true) : s.ClosesClean w a := by
  cases a with
  | go o =>
    rw [closesEmpty] at h
    exact Manager.closesClean_of_closesEmpty h
  | other a =>
    rw [closesEmpty] at h
    exact Manager.closesClean_of_closesEmpty h
  | _ => trivial

/-- No commit has answered with an error. -/
def commitsB (w : T) (s : WriterTask T) : WriterAct T → Bool
  | .go _ =>
    match s.pc, s.manager.threads w with
    | .committing false, .returned _ r => decide (r = .unit)
    | _, _ => true
  | _ => true

omit [DecidableEq T] [Fintype T] in
theorem commits_of_commitsB {a : WriterAct T} (h : s.commitsB w a = true) : s.Commits w a := by
  cases a with
  | go o =>
    intro hpc c r hret
    simp only [commitsB, hpc, hret, decide_eq_true_eq] at h
    exact h
  | _ => trivial

section Runs

private def posted (id : String) (createdAt : ℕ) : NostrEvent :=
  { id := id, pubkey := "", createdAt := createdAt, kind := 1, tags := [], content := "",
    sig := "" }

private def first : NostrEvent :=
  posted "5c83da77af1dec6d7289834998ad7aafbd9e2191396d75ec3cc27f5a77226f36" 1700000000

private def second : NostrEvent :=
  posted "000000000000000000000000000000000000000000000000000000000000002a" 1700000100

private def options : WriterOptions :=
  { shards := { commitEveryDocs := 100000, commitEveryMs := 30000, maxOpenShards := 64 }
    queueSize := 8 }

private def goes (n : ℕ) : List (WriterAct (Fin 2)) := List.replicate n (.go { now := 1710000000 })

/-- The first note is sent, indexed and committed by a tick. -/
private def quietRun : List (WriterAct (Fin 2)) :=
  [.send first, .recv] ++ goes 12 ++ [.tick] ++ goes 5

/-- The second is in the queue when the task is told to stop. -/
private def stopRun : List (WriterAct (Fin 2)) :=
  quietRun ++ [.send second, .shutdown, .recv] ++ goes 16

private theorem quietRun_isSome :
    (run (step options 0) (start (fun _ => []) (some ∅)) quietRun).isSome := by
  decide +kernel

private def quieted : WriterTask (Fin 2) :=
  (run (step options 0) (start (fun _ => []) (some ∅)) quietRun).get quietRun_isSome

private theorem stopRun_isSome :
    (run (step options 0) (start (fun _ => []) (some ∅)) stopRun).isSome := by
  decide +kernel

private def ended : WriterTask (Fin 2) :=
  (run (step options 0) (start (fun _ => []) (some ∅)) stopRun).get stopRun_isSome

private theorem stopRun_closesClean :
    Along (step options 0) (ClosesClean 0) (start (fun _ => []) (some ∅)) stopRun :=
  along_of_alongB (fun _ _ => closesClean_of_closesEmpty) (by decide +kernel)

/-- Both notes are recorded, and on disk. -/
theorem ended_recorded :
    ended.idStore = some {claimId first, claimId second} ∧
      ∀ ids, ended.idStore = some ids → ∀ id ∈ ids, id ∈ (∅ : Finset Bytes32) ∨
        ∃ ev, claimId ev = id ∧ ended.manager.shards.Durable ev :=
  ⟨by decide +kernel, recorded_ids_durable options 0 (fun _ => []) ∅ stopRun ended
    (Option.some_get _).symm stopRun_closesClean⟩

/-- The first note is on disk while the task waits. -/
theorem quieted_durable :
    (first, true) ∈ quieted.processed ∧
      ∀ ev, (ev, true) ∈ quieted.processed → quieted.manager.shards.Durable ev :=
  ⟨by decide +kernel, quiet_durable options 0 (fun _ => []) ∅ quietRun quieted
    (Option.some_get _).symm
    (along_of_alongB (fun _ _ => closesClean_of_closesEmpty) (by decide +kernel))
    (along_of_alongB (fun _ _ => commits_of_commitsB) (by decide +kernel)) rfl rfl⟩

end Runs

end WriterTask

end NostrSearch.Server
