import NostrSearch.Indexer.Dedupe

/-!
# Ids are claimed after their documents are durable

`commit_and_claim` commits every open shard and then takes the pending ids. It holds the
pipeline lock, but a reader queues its documents and adds to the pending set without it: a
document queued in a shard the checkpoint is done with, or in one that was not open when it
looked, and whose id is added before the set is taken, is claimed while it is not on disk
(`claims_an_id_early`).

`ClaimsInTime` says of each step that it is not such an addition, and that no eviction loses
an event; `claimed_ids_durable` is what then holds of every state, a crash at any point included.
-/

namespace NostrSearch.Indexer

open NostrSearch.Core NostrSearch.Lib

/-! ## Calls in progress -/

/-- The call a thread is in, or was last in. -/
def Pc.call : Pc → Option Call
  | .idle => none
  | .returned c _ | .called c => some c
  | .route ev _ => some (.indexEvent ev)
  | .find j | .findOrOpen j | .add j _ | .countSince j _ | .countTotal j _ | .shouldCommit j _
  | .commitDoc j _ => some (.indexEvent j.ev)
  | .evicting _ k => some k.call
  | .closeFind _ k | .closeCommit _ _ k | .closeDrop _ _ k | .closeRemove _ k => some k.call
  | .ticking _ | .tickCommit _ _ => some .tick
  | .committing _ _ _ => some .commitAll

private theorem call_evict_resume (k : EvictCaller) : k.resume.call = some k.call := by
  cases k <;> rfl

private theorem call_resume (k : CloseCaller) : k.resume.call = some k.call := by
  cases k <;> rfl

/-- A thread stays in its call until it returns from it. -/
theorem stepThread_call {cfg : ShardWriterConfig} {strong : ℕ → ℕ} {s s' : Shards}
    {o : Oracle} {pc pc' : Pc} (h : stepThread cfg strong s o pc = some (s', pc')) :
    pc'.call = pc.call := by
  cases pc with
  | idle => cases h
  | returned c r => cases h
  | called c =>
    cases c with
    | indexEvent ev =>
      simp only [stepThread] at h
      split at h <;> cases h <;> rfl
    | _ => cases h; rfl
  | route ev ret => cases h; rfl
  | find j =>
    simp only [stepThread] at h
    split at h <;> cases h <;> rfl
  | evicting left k =>
    cases left with
    | zero => cases h; exact call_evict_resume k
    | succ left =>
      simp only [stepThread] at h
      split at h
      case isTrue => cases h; exact call_evict_resume k
      case isFalse =>
        split at h <;> split at h <;> cases h
        · rfl
        · exact call_evict_resume k
  | closeFind id k =>
    simp only [stepThread] at h
    split at h <;> cases h
    · rfl
    · exact call_resume k
  | closeCommit id c k =>
    simp only [stepThread] at h
    split at h <;> cases h <;> rfl
  | closeDrop id c k => cases h; rfl
  | closeRemove id k =>
    simp only [stepThread] at h
    split at h
    case h_1 => split at h <;> cases h <;> exact call_resume k
    case h_2 => cases h; exact call_resume k
  | findOrOpen j =>
    simp only [stepThread] at h
    split at h
    case h_1 => cases h; rfl
    case h_2 => split at h <;> cases h <;> rfl
  | add j c =>
    simp only [stepThread] at h
    split at h <;> cases h <;> rfl
  | countSince j c => cases h; rfl
  | countTotal j c => cases h; rfl
  | shouldCommit j c =>
    simp only [stepThread] at h
    split at h <;> cases h <;> rfl
  | commitDoc j c =>
    simp only [stepThread] at h
    split at h <;> cases h <;> rfl
  | ticking todo =>
    simp only [stepThread] at h
    repeat' split at h
    all_goals cases h
    all_goals rfl
  | tickCommit c todo =>
    simp only [stepThread] at h
    split at h <;> cases h <;> rfl
  | committing snap todo errs =>
    simp only [stepThread] at h
    repeat' split at h
    all_goals cases h
    all_goals rfl

/-! ## Dedupe -/

/-- Each event of a plan is claimed under its own id. -/
theorem work_claimId {batch : List NostrEvent} {known : List Bool} {pending : Bytes32 → Bool}
    {w : NostrEvent × Option Bytes32}
    (hw : w ∈ (planIndexWork (batch.map claimId) known pending).work batch) :
    ∀ id ∈ w.2, id = claimId w.1 := by
  rw [planned] at hw
  obtain ⟨entry, -, rfl⟩ := List.mem_map.mp hw
  intro id hid
  exact (Option.some.inj hid).symm

/-! ## The invariant -/

namespace Manager

variable {T : Type} [DecidableEq T] [Fintype T]

/-- A thread that answered `Ok` to an `index_event` has acknowledged its event. -/
def Answered (s : Manager T) : Prop :=
  ∀ t ev id, s.threads t = .returned (.indexEvent ev) (.shard id) → ev ∈ s.acked

theorem answered_step {cfg : ShardWriterConfig} {s s' : Manager T} {a : Act T}
    (hs : s.Answered) (h : step cfg s a = some s') : s'.Answered := by
  intro u ev id hu
  rcases step_cases h with ⟨t, c, -, -, rfl⟩ | ⟨t, o, sh, pc, -, hstep, rfl⟩
  · by_cases hut : u = t
    · subst hut
      simp only [Function.update_self] at hu
      cases hu
    · simp only [Function.update_of_ne hut] at hu
      exact hs u ev id hu
  · by_cases hut : u = t
    · subst hut
      simp only [Function.update_self] at hu
      rw [hu]
      exact List.mem_cons_self
    · simp only [Function.update_of_ne hut] at hu
      exact List.mem_append_right _ (hs u ev id hu)

theorem acked_step {cfg : ShardWriterConfig} {s s' : Manager T} {a : Act T}
    (h : step cfg s a = some s') : ∀ ev ∈ s.acked, ev ∈ s'.acked := by
  rcases step_cases h with ⟨t, c, -, -, rfl⟩ | ⟨t, o, sh, pc, -, hstep, rfl⟩
  · exact fun ev hev => hev
  · exact fun ev hev => List.mem_append_right _ hev

theorem durable_step {cfg : ShardWriterConfig} {s s' : Manager T} {a : Act T}
    (h : step cfg s a = some s') {ev : NostrEvent} (hd : s.shards.Durable ev) :
    s'.shards.Durable ev := by
  rcases step_cases h with ⟨t, c, -, -, rfl⟩ | ⟨t, o, sh, pc, -, hstep, rfl⟩
  · exact hd
  · exact (stepThread_effect hstep).durable hd

/-- Whoever does not start a call stays in the one it is in. -/
theorem call_step {cfg : ShardWriterConfig} {s s' : Manager T} {a : Act T}
    (h : step cfg s a = some s') {u : T} (hu : ∀ c, a ≠ .call u c) :
    (s'.threads u).call = (s.threads u).call := by
  rcases step_cases h with ⟨t, c, rfl, -, rfl⟩ | ⟨t, o, sh, pc, -, hstep, rfl⟩
  · have hut : u ≠ t := fun heq => hu c (by rw [heq])
    simp only [Function.update_of_ne hut]
  · by_cases hut : u = t
    · subst hut
      simp only [Function.update_self]
      exact stepThread_call hstep
    · simp only [Function.update_of_ne hut]

end Manager

namespace Ingest

variable {T : Type} [DecidableEq T] [Fintype T]

/-- An event claimed under the id has been acknowledged by the shard writers. -/
def Acked (m : Manager T) (id : Bytes32) : Prop := ∃ ev ∈ m.acked, claimId ev = id

/-- The id's document is committed in its shard. -/
def Committed (m : Manager T) (id : Bytes32) : Prop :=
  ∃ ev, claimId ev = id ∧ m.shards.Durable ev

/-- The `commit_all` thread `t` is running will have the id's document on disk if it returns
`Ok`: it has not looked at the open shards yet, or has failed one, or the document is on disk
or covered in a shard it has still to commit. -/
def InTime (m : Manager T) (t : T) (id : Bytes32) : Prop :=
  ∃ ev, claimId ev = id ∧ Manager.Due ev m.shards m.acked (m.threads t)

/-- The events a reader has before it are to be claimed under their own ids. -/
def WorkOk (pc : IngestPc) : Prop := ∀ w ∈ pc.work, ∀ id ∈ w.2, id = claimId w.1

/-- What is so of a thread where it is. -/
def ThreadOk (m : Manager T) (pending : Finset Bytes32) (t : T) : IngestPc → Prop
  | .indexing id _ _ =>
    ∃ ev, (m.threads t).call = some (.indexEvent ev) ∧ ∀ i ∈ id, i = claimId ev
  | .committing => ∀ id ∈ pending, InTime m t id
  | .flush ids => ∀ id ∈ ids, Committed m id
  | _ => True

structure Inv (s : Ingest T) : Prop where
  manager : s.manager.Inv
  answered : s.manager.Answered
  work : ∀ t, WorkOk (s.threads t)
  okIds : ∀ t, ∀ id ∈ (s.threads t).okIds, Acked s.manager id
  pending : ∀ id ∈ s.pending, Acked s.manager id
  threads : ∀ t, ThreadOk s.manager s.pending t (s.threads t)
  idStore : ∀ store, s.idStore = some store → ∀ id ∈ store, Committed s.manager id

/-- The condition under which no id is claimed early. Eviction loses nothing, and when a
reader adds to the pending set while a checkpoint is committing, the documents of the ids it
adds are in time for that commit. -/
def ClaimsInTime (s : Ingest T) : IngestAct T → Prop
  | .go t o =>
    s.manager.ClosesClean (.go t o) ∧
      ∀ okIds, s.threads t = .extend okIds → ∀ u, s.threads u = .committing →
        ∀ id ∈ okIds, InTime s.manager u id
  | _ => True

omit [DecidableEq T] [Fintype T] in
theorem inv_start {disk : ShardId → List NostrEvent} {idStore : Option (Finset Bytes32)}
    (h : ∀ store, idStore = some store → ∀ id ∈ store,
      Committed (start disk idStore : Ingest T).manager id) :
    (start disk idStore : Ingest T).Inv where
  manager := ⟨Manager.registered_init, fun _ => trivial, fun _ hev => absurd hev List.not_mem_nil⟩
  answered := fun _ _ _ hpc => nomatch hpc
  work := fun _ _ hw => absurd hw List.not_mem_nil
  okIds := fun _ _ hid => absurd hid List.not_mem_nil
  pending := fun id hid => absurd hid (Finset.notMem_empty id)
  threads := fun _ => trivial
  idStore := h

/-- A step inside the manager, taken by a thread that does not start a call there. -/
theorem threadOk_manager {cfg : ShardWriterConfig} {m m' : Manager T} {a : Act T}
    {pending : Finset Bytes32} {u : T} {pc : IngestPc} (hm : m.Inv)
    (h : Manager.step cfg m a = some m') (hu : ∀ c, a ≠ .call u c)
    (hpc : ThreadOk m pending u pc) : ThreadOk m' pending u pc := by
  cases pc with
  | indexing id work okIds =>
    obtain ⟨ev, hcall, hid⟩ := hpc
    exact ⟨ev, by rw [Manager.call_step h hu, hcall], hid⟩
  | committing =>
    intro id hid
    obtain ⟨ev, hev, hdue⟩ := hpc id hid
    exact ⟨ev, hev, Manager.due_step hm hdue hu h⟩
  | flush ids =>
    intro id hid
    obtain ⟨ev, hev, hd⟩ := hpc id hid
    exact ⟨ev, hev, Manager.durable_step h hd⟩
  | _ => trivial

/-- A step inside the manager by thread `t`, which goes on at `pc`. -/
theorem inv_manager {cfg : ShardWriterConfig} {s : Ingest T} {m : Manager T} {a : Act T}
    {t : T} {pc : IngestPc} (hs : s.Inv) (hclean : s.manager.ClosesClean a)
    (h : Manager.step cfg s.manager a = some m) (ha : ∀ u, u ≠ t → ∀ c, a ≠ .call u c)
    (hwork : WorkOk pc)
    (hok : ∀ id ∈ pc.okIds, Acked s.manager id) (hpc : ThreadOk m s.pending t pc) :
    ({ s with manager := m }.goto t pc).Inv := by
  have hacked : ∀ id, Acked s.manager id → Acked m id := fun id ⟨ev, hev, hid⟩ =>
    ⟨ev, Manager.acked_step h ev hev, hid⟩
  constructor
  case manager => exact Manager.inv_step hs.manager hclean h
  case answered => exact Manager.answered_step hs.answered h
  case work =>
    exact (Function.forall_update_iff s.threads fun _ => WorkOk).mpr ⟨hwork, fun u _ => hs.work u⟩
  case okIds =>
    refine (Function.forall_update_iff s.threads fun _ pc => ∀ id ∈ pc.okIds, Acked m id).mpr
      ⟨fun id hid => hacked id (hok id hid), fun u _ id hid => hacked id (hs.okIds u id hid)⟩
  case pending => exact fun id hid => hacked id (hs.pending id hid)
  case threads =>
    refine (Function.forall_update_iff s.threads (ThreadOk m s.pending)).mpr ⟨hpc, fun u hu => ?_⟩
    exact threadOk_manager hs.manager h (ha u hu) (hs.threads u)
  case idStore =>
    intro store hstore id hid
    obtain ⟨ev, hev, hd⟩ := hs.idStore store hstore id hid
    exact ⟨ev, hev, Manager.durable_step h hd⟩

omit [Fintype T] in
/-- A step outside the manager that leaves the pending set and the id store alone. -/
theorem Inv.goto {s : Ingest T} {t : T} {pc : IngestPc} (hs : s.Inv) (hwork : WorkOk pc)
    (hok : ∀ id ∈ pc.okIds, Acked s.manager id) (hpc : ThreadOk s.manager s.pending t pc) :
    (s.goto t pc).Inv where
  manager := hs.manager
  answered := hs.answered
  work := (Function.forall_update_iff s.threads fun _ => WorkOk).mpr
    ⟨hwork, fun u _ => hs.work u⟩
  okIds := (Function.forall_update_iff s.threads fun _ pc =>
    ∀ id ∈ pc.okIds, Acked s.manager id).mpr ⟨hok, fun u _ => hs.okIds u⟩
  pending := hs.pending
  threads := (Function.forall_update_iff s.threads (ThreadOk s.manager s.pending)).mpr
    ⟨hpc, fun u _ => hs.threads u⟩
  idStore := hs.idStore

omit [DecidableEq T] [Fintype T] in
/-- Who has the pipeline lock does not matter to the invariant. -/
theorem Inv.withLock {s : Ingest T} (hs : s.Inv) (lock : Option T) :
    ({ s with lock := lock } : Ingest T).Inv :=
  ⟨hs.manager, hs.answered, hs.work, hs.okIds, hs.pending, hs.threads, hs.idStore⟩

private theorem workOk_nil {pc : IngestPc} (h : pc.work = []) : WorkOk pc := by
  intro w hw
  rw [h] at hw
  exact absurd hw List.not_mem_nil

omit [DecidableEq T] [Fintype T] in
private theorem acked_nil {m : Manager T} {pc : IngestPc} (h : pc.okIds = []) :
    ∀ id ∈ pc.okIds, Acked m id := by
  intro id hid
  rw [h] at hid
  exact absurd hid List.not_mem_nil

omit [Fintype T] in
/-- A reader adds to the pending set ids that are in time for whoever is committing. -/
theorem inv_extend {s : Ingest T} {t : T} {okIds : List Bytes32} (hs : s.Inv)
    (hacked : ∀ id ∈ okIds, Acked s.manager id)
    (htime : ∀ u, s.threads u = .committing → ∀ id ∈ okIds, InTime s.manager u id) :
    ({ s with pending := s.pending ∪ okIds.toFinset }.goto t .idle).Inv := by
  have hpending : ({ s with pending := s.pending ∪ okIds.toFinset } : Ingest T).Inv := by
    refine ⟨hs.manager, hs.answered, hs.work, hs.okIds, ?_, fun u => ?_, hs.idStore⟩
    · intro id hid
      rcases Finset.mem_union.mp hid with hid | hid
      · exact hs.pending id hid
      · exact hacked id (List.mem_toFinset.mp hid)
    · have hu := hs.threads u
      cases hcur : s.threads u with
      | committing =>
        rw [hcur] at hu
        intro id hid
        rcases Finset.mem_union.mp hid with hid | hid
        · exact hu id hid
        · exact htime u hcur id (List.mem_toFinset.mp hid)
      | indexing id work okIds => rwa [hcur] at hu
      | flush ids => rwa [hcur] at hu
      | _ => trivial
  exact hpending.goto (workOk_nil rfl) (acked_nil rfl) trivial

omit [Fintype T] in
/-- A checkpoint whose commit returned `Ok` takes the pending set. -/
theorem inv_take {s : Ingest T} {t : T} (hs : s.Inv)
    (htime : ∀ id ∈ s.pending, Committed s.manager id) :
    ({ s with pending := ∅ }.goto t (.flush s.pending)).Inv := by
  have htaken : ({ s with pending := ∅ } : Ingest T).Inv := by
    refine ⟨hs.manager, hs.answered, hs.work, hs.okIds, ?_, fun u => ?_, hs.idStore⟩
    · exact fun id hid => absurd hid (Finset.notMem_empty id)
    · have hu := hs.threads u
      cases hcur : s.threads u with
      | committing => exact fun id hid => absurd hid (Finset.notMem_empty id)
      | indexing id work okIds => rwa [hcur] at hu
      | flush ids => rwa [hcur] at hu
      | _ => trivial
  exact htaken.goto (workOk_nil rfl) (acked_nil rfl) htime

omit [DecidableEq T] [Fintype T] in
/-- `IdStore::flush`. -/
theorem inv_flush {s : Ingest T} {ids : Finset Bytes32} (hs : s.Inv)
    (hids : ∀ id ∈ ids, Committed s.manager id) :
    ({ s with idStore := s.idStore.map fun store => store ∪ ids } : Ingest T).Inv := by
  refine ⟨hs.manager, hs.answered, hs.work, hs.okIds, hs.pending, hs.threads, ?_⟩
  intro store hstore id hid
  obtain ⟨old, hold, rfl⟩ := Option.map_eq_some_iff.mp hstore
  rcases Finset.mem_union.mp hid with hid | hid
  · exact hs.idStore old hold id hid
  · exact hids id hid

/-- A thread inside the manager takes a step there. -/
theorem inv_inManager {opts : IngestOptions} {s s' : Ingest T} {t : T} {o : Oracle} (hs : s.Inv)
    (hclean : s.manager.ClosesClean (.go t o)) (h : s.inManager opts (.go t o) = some s') :
    s'.Inv := by
  obtain ⟨m, hstep, rfl⟩ := Option.map_eq_some_iff.mp h
  have hpc : ThreadOk m s.pending t (s.threads t) :=
    threadOk_manager hs.manager hstep (fun c => nofun) (hs.threads t)
  have hinv := inv_manager hs hclean hstep (fun u _ c => nofun) (hs.work t) (hs.okIds t) hpc
  -- it stays at its place in the ingest
  rwa [Ingest.goto, Function.update_eq_self] at hinv

/-- A thread calls the manager. -/
theorem inv_startAt {opts : IngestOptions} {s s' : Ingest T} {t : T} {c : Call} {pc : IngestPc}
    (hs : s.Inv) (hwork : WorkOk pc) (hok : ∀ id ∈ pc.okIds, Acked s.manager id)
    (hpc : ∀ m : Manager T, m.threads t = .called c → m.acked = s.manager.acked →
      ThreadOk m s.pending t pc)
    (h : s.startAt opts t c pc = some s') : s'.Inv := by
  simp only [startAt, inManager, Option.map_map, Option.map_eq_some_iff] at h
  obtain ⟨m, hstep, rfl⟩ := h
  have hclean : s.manager.ClosesClean (.call t c) := trivial
  refine inv_manager hs hclean hstep ?_ hwork hok ?_
  · intro u hu c' heq
    cases heq
    exact hu rfl
  · simp only [Manager.step] at hstep
    split at hstep <;> cases hstep
    exact hpc _ (Function.update_self t _ _) rfl

/-- What each step of a thread preserves. -/
theorem inv_stepThread {opts : IngestOptions} {s s' : Ingest T} {t : T} {o : Oracle} (hs : s.Inv)
    (hok : s.ClaimsInTime (.go t o)) (h : s.stepThread opts t o = some s') : s'.Inv := by
  obtain ⟨hclean, htime⟩ := hok
  have hwork := hs.work t
  have hids := hs.okIds t
  have hpc := hs.threads t
  unfold stepThread at h
  cases hcur : s.threads t with
  | idle =>
    simp only [hcur] at h
    cases h
  | lookup batch =>
    simp only [hcur] at h
    split at h <;> cases h
    · exact hs.goto (workOk_nil rfl) (acked_nil rfl) trivial
    · refine hs.goto ?_ (acked_nil rfl) trivial
      -- with dedupe off nothing is claimed
      intro w hw id hid
      obtain ⟨ev, -, rfl⟩ := List.mem_map.mp hw
      cases hid
  | plan batch known =>
    simp only [hcur] at h
    cases h
    exact hs.goto (fun w hw => work_claimId hw) (acked_nil rfl) trivial
  | fold work =>
    simp only [hcur] at h hwork
    split at h <;> cases h
    exact hs.goto hwork (acked_nil rfl) trivial
  | index work okIds =>
    rw [hcur] at hwork hids
    simp only [hcur] at h
    cases work with
    | nil =>
      cases h
      exact hs.goto (workOk_nil rfl) hids trivial
    | cons w work =>
      have hrest : WorkOk (.indexing w.2 work okIds) :=
        fun v hv => hwork v (List.mem_cons_of_mem _ hv)
      refine inv_startAt hs hrest hids ?_ h
      intro m hm _
      refine ⟨w.1, by rw [hm]; rfl, hwork w List.mem_cons_self⟩
  | indexing id work okIds =>
    rw [hcur] at hwork hids hpc
    simp only [hcur] at h
    obtain ⟨ev, hcall, hid⟩ := hpc
    split at h
    case h_1 c r hret =>
      cases h
      refine hs.goto hwork (fun i hi => ?_) trivial
      rw [hret, Pc.call, Option.some.injEq] at hcall
      subst hcall
      rcases List.mem_append.mp hi with hi | hi
      · exact hids i hi
      -- the id joins those whose `index_event` answered `Ok`
      · exact ⟨ev, hs.answered t ev r hret, (hid i (Option.mem_toList.mp hi)).symm⟩
    case h_2 =>
      cases h
      exact hs.goto hwork hids trivial
    case h_3 => exact inv_inManager hs hclean h
  | extend okIds =>
    rw [hcur] at hids
    simp only [hcur] at h
    cases h
    -- the one step that can put an id in behind a commit
    exact inv_extend hs hids (htime okIds hcur)
  | lock =>
    simp only [hcur] at h
    split at h <;> cases h
    exact (hs.withLock _).goto (workOk_nil rfl) (acked_nil rfl) trivial
  | commit =>
    simp only [hcur] at h
    refine inv_startAt hs (workOk_nil rfl) (acked_nil rfl) ?_ h
    -- `commit_all` is only called: the snapshot of the open shards is still to be taken
    intro m hm hacked id hid
    obtain ⟨ev, hev, heq⟩ := hs.pending id hid
    refine ⟨ev, heq, ?_⟩
    rw [hm, hacked]
    exact hev
  | committing =>
    rw [hcur] at hpc
    simp only [hcur] at h
    split at h
    case h_1 c hret =>
      split at h <;> cases h
      · -- what was in time is on disk now
        refine inv_take hs fun id hid => ?_
        obtain ⟨ev, heq, hdue⟩ := hpc id hid
        rw [hret] at hdue
        cases c with
        | commitAll => exact ⟨ev, heq, hdue⟩
        | _ => exact hdue.elim
      · exact (hs.withLock _).goto (workOk_nil rfl) (acked_nil rfl) trivial
    case h_2 =>
      cases h
      exact (hs.withLock _).goto (workOk_nil rfl) (acked_nil rfl) trivial
    case h_3 => exact inv_inManager hs hclean h
  | flush ids =>
    rw [hcur] at hpc
    simp only [hcur] at h
    split at h <;> cases h
    · exact (hs.withLock _).goto (workOk_nil rfl) (acked_nil rfl) trivial
    · exact ((inv_flush hs hpc).withLock _).goto (workOk_nil rfl) (acked_nil rfl) trivial

theorem inv_step {opts : IngestOptions} {s s' : Ingest T} {a : IngestAct T} (hs : s.Inv)
    (hok : s.ClaimsInTime a) (h : s.step opts a = some s') : s'.Inv := by
  cases a with
  | batch t events =>
    simp only [step] at h
    split at h <;> cases h
    exact hs.goto (workOk_nil rfl) (acked_nil rfl) trivial
  | checkpoint t =>
    simp only [step] at h
    split at h <;> cases h
    exact hs.goto (workOk_nil rfl) (acked_nil rfl) trivial
  | go t o => exact inv_stepThread hs hok h
  | crash =>
    cases h
    exact inv_start hs.idStore

/-- A node on an empty disk, with an empty id store. -/
def fresh : Ingest T := start (fun _ => []) (some ∅)

/-- **Claimed means durable.** Whatever the readers and the checkpoints do, in any order and
through any crashes, as long as every step is in time: in every state reached, each id of the
id store has its document committed in its shard. -/
theorem claimed_ids_durable (opts : IngestOptions) (as : List (IngestAct T)) (s : Ingest T)
    (hrun : run (step opts) fresh as = some s)
    (hok : Along (step opts) ClaimsInTime fresh as) :
    ∀ store, s.idStore = some store → ∀ id ∈ store,
      ∃ ev, claimId ev = id ∧ s.manager.shards.Durable ev := by
  have hfresh : (fresh : Ingest T).Inv := inv_start fun store hstore id hid => by
    cases hstore
    exact absurd hid (Finset.notMem_empty id)
  exact (run_invariant (fun _ _ _ => inv_step) hfresh hok hrun).idStore

/-! ## Readers against checkpoints -/

/-- Nothing is queued in a shard that is closed, and nobody commits while a reader adds to the
pending set. -/
def addsAlone (s : Ingest T) : IngestAct T → Bool
  | .go t o =>
    s.manager.closesEmpty (.go t o) &&
      match s.threads t with
      | .extend _ => decide (∀ u, (s.threads u matches .committing) = false)
      | _ => true
  | _ => true

omit [DecidableEq T] in
theorem claimsInTime_of_addsAlone [DecidableEq T] {s : Ingest T} {a : IngestAct T}
    (h : s.addsAlone a = true) : s.ClaimsInTime a := by
  cases a with
  | go t o =>
    rw [addsAlone, Bool.and_eq_true] at h
    refine ⟨Manager.closesClean_of_closesEmpty h.1, fun okIds hext u hu => ?_⟩
    have halone := h.2
    simp only [hext, decide_eq_true_eq] at halone
    have := halone u
    rw [hu] at this
    cases this
  | _ => trivial

section Runs

private def archived : NostrEvent :=
  { id := "5c83da77af1dec6d7289834998ad7aafbd9e2191396d75ec3cc27f5a77226f36", pubkey := "",
    createdAt := 1700000000, kind := 1, tags := [], content := "", sig := "" }

private def ingestOptions : IngestOptions :=
  { shards := { commitEveryDocs := 100000, commitEveryMs := 30000, maxOpenShards := 64 }
    dedupe := true }

private def moves (t : Fin 2) (n : ℕ) : List (IngestAct (Fin 2)) :=
  List.replicate n (.go t { now := 1710000000 })

/-- Thread 0 reads, indexes and adds to the pending set, then thread 1 makes a checkpoint. -/
private def inTurn : List (IngestAct (Fin 2)) :=
  .batch 0 [archived] :: moves 0 16 ++ .checkpoint 1 :: moves 1 7

private theorem inTurn_isSome : (run (step ingestOptions) fresh inTurn).isSome := by
  decide +kernel

/-- The rule at work: the id is in the store. -/
theorem claimed_in_turn :
    ((run (step ingestOptions) fresh inTurn).get inTurn_isSome).idStore = some {claimId archived} ∧
      ∀ store, ((run (step ingestOptions) fresh inTurn).get inTurn_isSome).idStore = some store →
        ∀ id ∈ store, ∃ ev, claimId ev = id ∧
          ((run (step ingestOptions) fresh inTurn).get inTurn_isSome).manager.shards.Durable ev :=
  ⟨by decide +kernel, claimed_ids_durable ingestOptions inTurn _ (Option.some_get _).symm
    (along_of_alongB (fun _ _ => claimsInTime_of_addsAlone) (by decide +kernel))⟩

/-- The checkpoint looks at the open shards, the reader indexes and adds to the pending set,
the checkpoint goes on. -/
private def overtaken : List (IngestAct (Fin 2)) :=
  .batch 0 [archived] :: moves 0 3 ++ .checkpoint 1 :: moves 1 3 ++ moves 0 13 ++ moves 1 3

private theorem overtaken_isSome : (run (step ingestOptions) fresh overtaken).isSome := by
  decide +kernel

private theorem disk_overtaken :
    ((run (step ingestOptions) fresh overtaken).get overtaken_isSome).manager.shards.disk =
      fun _ => [] := rfl

/-- A checkpoint can claim an id whose document is in no shard on disk. -/
theorem claims_an_id_early :
    ¬ ∀ (as : List (IngestAct (Fin 2))) (s : Ingest (Fin 2)),
      run (step ingestOptions) fresh as = some s →
        ∀ store, s.idStore = some store → ∀ id ∈ store,
          ∃ ev, claimId ev = id ∧ s.manager.shards.Durable ev := by
  intro h
  obtain ⟨ev, -, now, hev⟩ := h overtaken _ (Option.some_get overtaken_isSome).symm
    {claimId archived} (by decide +kernel) (claimId archived) (Finset.mem_singleton_self _)
  rw [disk_overtaken] at hev
  exact List.not_mem_nil hev

end Runs

end Ingest

end NostrSearch.Indexer
