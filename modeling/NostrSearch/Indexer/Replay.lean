import NostrSearch.Indexer.Pipeline
import NostrSearch.Lib.Run
import NostrSearch.Stats.Accounting

/-!
# Replaying an archive

`run_passes` and what happens around it, as a step function over a `Node`: the pipeline of a
process and where its ingest is. A pass reads its files in groups; the reader threads hand over
the events of a group in no particular order, each once, and the group is recorded as finished
when all of them are in. An indexing pass reads the whole directory as one group and records
nothing. The cancel flag is looked at between chunks; a chunk here has one event, which is one of
the sizes the options allow and lets a cancel fall anywhere.

Around the ingest, analyses are reset while none is running, the process is stopped, with a final
flush or without, and started again on what is in its state directory. The external store the
analyses share is on disk as well, and survives.
-/

namespace NostrSearch.Indexer

open NostrSearch.Core NostrSearch.Lib NostrSearch.Stats

/-- A dump in the input directory: its `file_key`, its size and its events. -/
structure ArchiveFile where
  key : String
  len : ℕ
  events : List NostrEvent
deriving DecidableEq

/-- What the passes of an ingest read of its options. -/
structure ReplayOptions where
  parallelism : ℕ
  index : Bool
  stopAfterFiles : Option ℕ
deriving DecidableEq

def resumeBatchBytes : ℕ := 8 * 2 ^ 30

/-- One file of `batch_files`: the groups made so far, the group being filled, and its bytes. -/
def batchStep (width maxBytes : ℕ) (acc : List (List ArchiveFile) × List ArchiveFile × ℕ)
    (f : ArchiveFile) : List (List ArchiveFile) × List ArchiveFile × ℕ :=
  let acc :=
    if acc.2.1 ≠ [] ∧ (width ≤ acc.2.1.length ∨ maxBytes < acc.2.2 + f.len) then
      (acc.1 ++ [acc.2.1], [], 0)
    else acc
  (acc.1, acc.2.1 ++ [f], acc.2.2 + f.len)

def batchFiles (files : List ArchiveFile) (width maxBytes : ℕ) : List (List ArchiveFile) :=
  let acc := files.foldl (batchStep width maxBytes) ([], [], 0)
  if acc.2.1 = [] then acc.1 else acc.1 ++ [acc.2.1]

/-- The events of some files. -/
def eventsOf (files : List ArchiveFile) : Multiset NostrEvent :=
  Multiset.ofList (files.flatMap ArchiveFile.events)

/-- Where an ingest is. -/
inductive Phase
  | idle
  /-- at the top of the loop over the passes -/
  | passStart
  /-- at the top of the loop over the groups, with those still to come and the number of files
  finished in this pass -/
  | reading (groups : List (List ArchiveFile)) (filesDone : ℕ)
  /-- in a group, with the events that were not handed over yet -/
  | group (files : List ArchiveFile) (left : Multiset NostrEvent)
      (groups : List (List ArchiveFile)) (filesDone : ℕ)
  /-- before `advance` -/
  | advancing
  /-- before `go_live` -/
  | finalizing

/-- What a process is started on, its archive included. -/
structure Site (σ ε : Type) where
  cfg : PipelineConfig
  analyses : List (DynAnalysis σ ε)
  archive : List ArchiveFile

structure Node (σ ε : Type) where
  pipe : Pipeline σ ε
  phase : Phase
  opts : ReplayOptions
  cancel : Bool

inductive ReplayAct
  /-- an ingest is started -/
  | start (opts : ReplayOptions)
  /-- one turn of the loop over the passes, up to its groups -/
  | pass
  /-- the next turn of the loop over the groups -/
  | nextGroup
  /-- an event of the group is folded -/
  | fold (ev : NostrEvent) (clk : Clock)
  | endGroup (clk : Clock)
  | advance (clk : Clock)
  | finalize (clk : Clock)
  /-- the cancel flag is set -/
  | cancel
  /-- `Pipeline::finish`, as on a graceful stop -/
  | finish (clk : Clock)
  /-- the process is gone, and a new one starts -/
  | restart (clk : Clock)
  | reset (name : String)
  | resetAll

namespace Node

variable {σ ε : Type}

/-- A process that has just come up. -/
def boot (site : Site σ ε) (ext : ε) (store : Option (StatStore σ)) (clk : Clock) :
    Option (Node σ ε) :=
  match Pipeline.new site.cfg site.analyses ext store clk with
  | .error _ => none
  | .ok p =>
    some { pipe := p, phase := .idle, cancel := false
           opts := { parallelism := 1, index := false, stopAfterFiles := none } }

def indexingPass (n : Node σ ε) : Bool := decide (n.pipe.pass = 0) && n.opts.index

/-- The files the pass reads. -/
def toRead (site : Site σ ε) (n : Node σ ε) : List ArchiveFile :=
  if n.indexingPass then site.archive
  else site.archive.filter fun f => !n.pipe.passFileDone f.key

/-- The groups it reads them in. -/
def groups (site : Site σ ε) (n : Node σ ε) : List (List ArchiveFile) :=
  if n.indexingPass then [n.toRead site]
  else batchFiles (n.toRead site) (max n.opts.parallelism 1) resumeBatchBytes

/-- Whether the pass goes straight to `advance`. -/
def skipsRead (n : Node σ ε) : Bool :=
  (!n.indexingPass && !n.pipe.passHasPendingAnalyses) || !n.pipe.passNeedsCorpus

/-- The pipeline an ingest starts with. -/
def planned (n : Node σ ε) (opts : ReplayOptions) : Pipeline σ ε :=
  if opts.index then n.pipe.planFullBackfill.1 else n.pipe.planReplay.1

def started (n : Node σ ε) (opts : ReplayOptions) : Node σ ε :=
  { pipe := n.planned opts, phase := .passStart, opts := opts, cancel := false }

def step (site : Site σ ε) (n : Node σ ε) : ReplayAct → Option (Node σ ε)
  | .start opts =>
    match n.phase with
    | .idle => some (n.started opts)
    | _ => none
  | .pass =>
    match n.phase with
    | .passStart =>
      if n.cancel then some { n with phase := .finalizing }
      else if n.skipsRead then some { n with phase := .advancing }
      else some { n with phase := .reading (n.groups site) 0 }
    | _ => none
  | .nextGroup =>
    match n.phase with
    | .reading [] _ => some { n with phase := if n.cancel then .finalizing else .advancing }
    | .reading (g :: gs) filesDone =>
      if n.cancel then some { n with phase := .finalizing }
      else if n.opts.stopAfterFiles.any (fun m => decide (m ≤ filesDone)) then
        some { n with cancel := true, phase := .finalizing }
      else some { n with phase := .group g (eventsOf g) gs filesDone }
    | _ => none
  | .fold ev clk =>
    match n.phase with
    | .group files left gs filesDone =>
      if n.cancel = false ∧ ev ∈ left then
        some { n with
          pipe := n.pipe.foldOnly ev clk
          phase := .group files (left.erase ev) gs filesDone }
      else none
    | _ => none
  | .endGroup clk =>
    match n.phase with
    | .group files left gs filesDone =>
      if n.cancel then some { n with phase := .finalizing }
      else if left = 0 then
        if n.indexingPass then some { n with phase := .reading gs filesDone }
        else
          some { n with
            pipe := n.pipe.finishPassFiles (files.map ArchiveFile.key) clk
            phase := .reading gs (filesDone + files.length) }
      else none
    | _ => none
  | .advance clk =>
    match n.phase with
    | .advancing =>
      let a := n.pipe.advancePass clk
      some { n with pipe := a.1, phase := if a.2 then .passStart else .finalizing }
    | _ => none
  | .finalize clk =>
    match n.phase with
    | .finalizing => some { n with pipe := n.pipe.goLive clk, phase := .idle }
    | _ => none
  | .cancel => some { n with cancel := true }
  | .finish clk => some { n with pipe := n.pipe.finish clk }
  | .restart clk => boot site n.pipe.registry.ext n.pipe.store clk
  | .reset name =>
    match n.phase with
    | .idle => (n.pipe.resetAnalysis name).map fun r => { n with pipe := r.1 }
    | _ => none
  | .resetAll =>
    match n.phase with
    | .idle => some { n with pipe := n.pipe.resetAllAnalyses.1 }
    | _ => none

end Node

/-! ## What each step can do -/

namespace Node

variable {σ ε : Type} {site : Site σ ε} {n n' : Node σ ε}

/-- Either plan is about the passes, and nothing else. -/
theorem planned_eq (n : Node σ ε) (opts : ReplayOptions) :
    ∃ stages pass, n.planned opts = { n.pipe with stages := stages, pass := pass } := by
  unfold planned
  split
  · exact n.pipe.planFullBackfill_eq
  · exact n.pipe.planReplay_eq

theorem step_start {opts : ReplayOptions} (h : step site n (.start opts) = some n') :
    n.phase = .idle ∧ n' = n.started opts := by
  simp only [step] at h
  split at h
  case h_1 hphase => exact ⟨hphase, (Option.some.inj h).symm⟩
  case h_2 => cases h

theorem step_pass (h : step site n .pass = some n') :
    n.phase = .passStart ∧
      ((n.cancel = true ∧ n' = { n with phase := .finalizing }) ∨
        (n.cancel = false ∧ n.skipsRead = true ∧ n' = { n with phase := .advancing }) ∨
        (n.cancel = false ∧ n.skipsRead = false ∧
          n' = { n with phase := .reading (n.groups site) 0 })) := by
  simp only [step] at h
  split at h
  case h_2 => cases h
  case h_1 hphase =>
    refine ⟨hphase, ?_⟩
    by_cases hcancel : n.cancel = true
    · rw [if_pos hcancel] at h
      exact Or.inl ⟨hcancel, (Option.some.inj h).symm⟩
    · rw [if_neg hcancel] at h
      have hcancel' : n.cancel = false := by simpa using hcancel
      by_cases hskip : n.skipsRead = true
      · rw [if_pos hskip] at h
        exact Or.inr (Or.inl ⟨hcancel', hskip, (Option.some.inj h).symm⟩)
      · rw [if_neg hskip] at h
        have hskip' : n.skipsRead = false := by simpa using hskip
        exact Or.inr (Or.inr ⟨hcancel', hskip', (Option.some.inj h).symm⟩)

theorem step_nextGroup (h : step site n .nextGroup = some n') :
    ∃ groups filesDone, n.phase = .reading groups filesDone ∧
      ((n' = { n with cancel := true, phase := .finalizing } ∧
          (n.cancel = true ∨ n.opts.stopAfterFiles ≠ none)) ∨
        (n.cancel = false ∧ groups = [] ∧ n' = { n with phase := .advancing }) ∨
        (n.cancel = false ∧ ∃ g gs, groups = g :: gs ∧
          n' = { n with phase := .group g (eventsOf g) gs filesDone })) := by
  simp only [step] at h
  split at h
  case h_1 filesDone hphase =>
    refine ⟨[], filesDone, hphase, ?_⟩
    by_cases hcancel : n.cancel = true
    · rw [if_pos hcancel] at h
      refine Or.inl ⟨?_, Or.inl hcancel⟩
      rw [← Option.some.inj h, ← hcancel]
    · rw [if_neg hcancel] at h
      exact Or.inr (Or.inl ⟨by simpa using hcancel, rfl, (Option.some.inj h).symm⟩)
  case h_2 g gs filesDone hphase =>
    refine ⟨g :: gs, filesDone, hphase, ?_⟩
    by_cases hcancel : n.cancel = true
    · rw [if_pos hcancel] at h
      refine Or.inl ⟨?_, Or.inl hcancel⟩
      rw [← Option.some.inj h, ← hcancel]
    · rw [if_neg hcancel] at h
      have hcancel' : n.cancel = false := by simpa using hcancel
      split at h
      case isTrue hstop =>
        refine Or.inl ⟨(Option.some.inj h).symm, Or.inr ?_⟩
        intro hnone
        rw [hnone] at hstop
        cases hstop
      case isFalse =>
        exact Or.inr (Or.inr ⟨hcancel', g, gs, rfl, (Option.some.inj h).symm⟩)
  case h_3 => cases h

theorem step_fold {ev : NostrEvent} {clk : Clock} (h : step site n (.fold ev clk) = some n') :
    ∃ files left gs filesDone, n.phase = .group files left gs filesDone ∧ n.cancel = false ∧
      ev ∈ left ∧ n' = { n with
        pipe := n.pipe.foldOnly ev clk
        phase := .group files (left.erase ev) gs filesDone } := by
  simp only [step] at h
  split at h
  case h_1 files left gs filesDone hphase =>
    split at h
    case isTrue hev =>
      exact ⟨files, left, gs, filesDone, hphase, hev.1, hev.2, (Option.some.inj h).symm⟩
    case isFalse => cases h
  case h_2 => cases h

theorem step_endGroup {clk : Clock} (h : step site n (.endGroup clk) = some n') :
    ∃ files left gs filesDone, n.phase = .group files left gs filesDone ∧
      ((n.cancel = true ∧ n' = { n with phase := .finalizing }) ∨
        (n.cancel = false ∧ left = 0 ∧ n.indexingPass = true ∧
          n' = { n with phase := .reading gs filesDone }) ∨
        (n.cancel = false ∧ left = 0 ∧ n.indexingPass = false ∧ n' = { n with
          pipe := n.pipe.finishPassFiles (files.map ArchiveFile.key) clk
          phase := .reading gs (filesDone + files.length) })) := by
  simp only [step] at h
  split at h
  case h_2 => cases h
  case h_1 files left gs filesDone hphase =>
    refine ⟨files, left, gs, filesDone, hphase, ?_⟩
    by_cases hcancel : n.cancel = true
    · rw [if_pos hcancel] at h
      exact Or.inl ⟨hcancel, (Option.some.inj h).symm⟩
    · rw [if_neg hcancel] at h
      have hcancel' : n.cancel = false := by simpa using hcancel
      by_cases hleft : left = 0
      · rw [if_pos hleft] at h
        by_cases hindex : n.indexingPass = true
        · rw [if_pos hindex] at h
          exact Or.inr (Or.inl ⟨hcancel', hleft, hindex, (Option.some.inj h).symm⟩)
        · rw [if_neg hindex] at h
          have hindex' : n.indexingPass = false := by simpa using hindex
          exact Or.inr (Or.inr ⟨hcancel', hleft, hindex', (Option.some.inj h).symm⟩)
      · rw [if_neg hleft] at h
        cases h

theorem step_advance {clk : Clock} (h : step site n (.advance clk) = some n') :
    n.phase = .advancing ∧ n' = { n with
      pipe := (n.pipe.advancePass clk).1
      phase := if (n.pipe.advancePass clk).2 then .passStart else .finalizing } := by
  simp only [step] at h
  split at h
  case h_1 hphase => exact ⟨hphase, (Option.some.inj h).symm⟩
  case h_2 => cases h

theorem step_finalize {clk : Clock} (h : step site n (.finalize clk) = some n') :
    n.phase = .finalizing ∧ n' = { n with pipe := n.pipe.goLive clk, phase := .idle } := by
  simp only [step] at h
  split at h
  case h_1 hphase => exact ⟨hphase, (Option.some.inj h).symm⟩
  case h_2 => cases h

end Node

/-! ## Batches -/

theorem flatten_batchFiles (files : List ArchiveFile) (width maxBytes : ℕ) :
    (batchFiles files width maxBytes).flatten = files := by
  have hloop : ∀ (fs : List ArchiveFile) (acc : List (List ArchiveFile) × List ArchiveFile × ℕ),
      (fs.foldl (batchStep width maxBytes) acc).1.flatten ++
          (fs.foldl (batchStep width maxBytes) acc).2.1 = acc.1.flatten ++ acc.2.1 ++ fs := by
    intro fs
    induction fs with
    | nil => simp
    | cons f fs ih =>
      intro acc
      rw [List.foldl_cons, ih]
      unfold batchStep
      by_cases h : acc.2.1 ≠ [] ∧ (width ≤ acc.2.1.length ∨ maxBytes < acc.2.2 + f.len)
      · simp [h]
      · simp only [if_neg h, List.append_assoc, List.singleton_append]
  have h := hloop files ([], [], 0)
  rw [List.flatten_nil, List.nil_append, List.nil_append] at h
  unfold batchFiles
  dsimp only
  split
  case isTrue hnil => rw [hnil, List.append_nil] at h; exact h
  case isFalse => simpa using h

@[simp] theorem eventsOf_nil : eventsOf [] = 0 := rfl

theorem eventsOf_append (fs gs : List ArchiveFile) :
    eventsOf (fs ++ gs) = eventsOf fs + eventsOf gs := by
  rw [eventsOf, List.flatMap_append, ← Multiset.coe_add, eventsOf, eventsOf]

theorem eventsOf_cons (f : ArchiveFile) (fs : List ArchiveFile) :
    eventsOf (f :: fs) = Multiset.ofList f.events + eventsOf fs := by
  rw [eventsOf, List.flatMap_cons, ← Multiset.coe_add, eventsOf]

/-- Two choices of files that differ in files the analysis wants nothing of. -/
theorem wanted_eventsOf_filter {σ ε : Type} {a : DynAnalysis σ ε} {p q : ArchiveFile → Bool}
    {fs : List ArchiveFile}
    (h : ∀ f ∈ fs, p f ≠ q f → a.wanted (Multiset.ofList f.events) = 0) :
    a.wanted (eventsOf (fs.filter p)) = a.wanted (eventsOf (fs.filter q)) := by
  induction fs with
  | nil => rfl
  | cons f fs ih =>
    have hrest := ih fun g hg => h g (List.mem_cons_of_mem f hg)
    have hf := h f List.mem_cons_self
    cases hp : p f <;> cases hq : q f
    · rw [List.filter_cons_of_neg (by simp [hp]), List.filter_cons_of_neg (by simp [hq]), hrest]
    · rw [List.filter_cons_of_neg (by simp [hp]), List.filter_cons_of_pos hq, eventsOf_cons,
        DynAnalysis.wanted_add, hf (by simp [hp, hq]), zero_add, hrest]
    · rw [List.filter_cons_of_pos hp, List.filter_cons_of_neg (by simp [hq]), eventsOf_cons,
        DynAnalysis.wanted_add, hf (by simp [hp, hq]), zero_add, hrest]
    · rw [List.filter_cons_of_pos hp, List.filter_cons_of_pos hq, eventsOf_cons, eventsOf_cons,
        DynAnalysis.wanted_add, DynAnalysis.wanted_add, hrest]

/-- A choice of files and the others are all of them. -/
theorem eventsOf_filter_add (p : ArchiveFile → Bool) (fs : List ArchiveFile) :
    eventsOf (fs.filter p) + eventsOf (fs.filter fun f => !p f) = eventsOf fs := by
  induction fs with
  | nil => rfl
  | cons f fs ih =>
    rw [eventsOf_cons, ← ih]
    cases hp : p f
    · rw [List.filter_cons_of_neg (by simp [hp]), List.filter_cons_of_pos (by simp [hp]),
        eventsOf_cons]
      abel
    · rw [List.filter_cons_of_pos hp, List.filter_cons_of_neg (by simp [hp]), eventsOf_cons]
      abel

theorem Node.toRead_eq_filter {σ ε : Type} (site : Site σ ε) (n : Node σ ε) :
    n.toRead site =
      site.archive.filter fun f => n.indexingPass || !n.pipe.passFileDone f.key := by
  unfold Node.toRead
  split
  case isTrue h => simp [h]
  case isFalse h => simp [h]

theorem flatten_groups {σ ε : Type} (site : Site σ ε) (n : Node σ ε) :
    (n.groups site).flatten = n.toRead site := by
  unfold Node.groups
  split
  · exact List.flatten_singleton
  · exact flatten_batchFiles _ _ _

/-! ## What the pipeline does to its analyses -/

namespace Pipeline

variable {σ ε : Type}

/-- Nothing was handed over, the passes are where they were, and the store has what it had or what
the analyses are now. -/
structure Quiet (p p' : Pipeline σ ε) : Prop where
  still : Registry.Still p.registry p'.registry
  live : p'.live = p.live
  stages : p'.stages = p.stages
  pass : p'.pass = p.pass
  store : p'.store = p.store ∨ p'.store = p.store.map p'.registry.persist

theorem quiet_refl (p : Pipeline σ ε) : Quiet p p :=
  ⟨Registry.still_refl _, rfl, rfl, rfl, Or.inl rfl⟩

theorem refreshInner_quiet (p : Pipeline σ ε) (force : Bool) (clk : Clock) :
    Quiet p (p.refreshInner force clk) := by
  unfold refreshInner
  split
  · exact quiet_refl p
  · dsimp only
    split
    · exact ⟨Registry.still_refl _, rfl, rfl, rfl, Or.inl rfl⟩
    case h_2 registry world hm =>
      have hstill : Registry.Still p.registry registry := Registry.materializeAll_still hm
      split
      · exact ⟨hstill, rfl, rfl, rfl, Or.inr rfl⟩
      · exact ⟨hstill, rfl, rfl, rfl, Or.inl rfl⟩

theorem maybeRefreshWot_quiet (p : Pipeline σ ε) (clk : Clock) :
    Quiet p (p.maybeRefreshWot clk) := by
  unfold maybeRefreshWot
  split
  · exact ⟨Registry.still_refl _, rfl, rfl, rfl, Or.inl rfl⟩
  · exact p.refreshInner_quiet false clk

/-- **`Pipeline::new`** loads the analyses, and refreshes the world if there is something in
them. -/
theorem new_quiet {cfg : PipelineConfig} {as : List (DynAnalysis σ ε)} {ext : ε}
    {store : Option (StatStore σ)} {clk : Clock} {p : Pipeline σ ε}
    (h : Pipeline.new cfg as ext store clk = .ok p) :
    ∃ me : Pipeline σ ε, me.registry = store.elim (Registry.ofAnalyses as ext)
        ((Registry.ofAnalyses as ext).load clk.wall) ∧ me.store = store ∧ Quiet me p := by
  rw [Pipeline.new] at h
  split at h
  · cases h
  case h_2 stages hstages =>
    rw [Except.ok.injEq] at h
    subst h
    split
    · refine ⟨_, ?_, ?_, refreshInner_quiet _ false clk⟩
      · rfl
      · rfl
    · refine ⟨_, ?_, ?_, quiet_refl _⟩
      · rfl
      · rfl

/-- The entries an event goes to. -/
def routed (p : Pipeline σ ε) : List ℕ := if p.live then p.registry.all else p.stage

theorem nodup_routed (p : Pipeline σ ε) (h : p.live = true ∨ p.stage.Nodup) : p.routed.Nodup := by
  unfold routed
  split
  case isTrue => exact p.registry.nodup_all
  case isFalse hlive => exact h.resolve_left hlive

/-- **`foldOnly`** hands the event to the entries it is routed to that take it. -/
theorem foldOnly_routed (p : Pipeline σ ε) (ev : NostrEvent) (clk : Clock)
    (hrouted : p.routed.Nodup) :
    Registry.Pointwise
        (fun i e => Entry.Moved
          (if i ∈ p.routed ∧ e.takes .backfill ev = true then {ev} else 0) e)
        p.registry (p.foldOnly ev clk).registry ∧
      (p.foldOnly ev clk).live = p.live ∧ (p.foldOnly ev clk).stages = p.stages ∧
      (p.foldOnly ev clk).pass = p.pass ∧
      ((p.foldOnly ev clk).store = p.store ∨
        (p.foldOnly ev clk).store = p.store.map (p.foldOnly ev clk).registry.persist) := by
  -- the event is folded, and then maybe the world is refreshed
  have hobserve : p.observeIntoStage ev clk.wall =
      { p with registry := p.registry.fold ev clk.wall p.world .backfill p.routed } := by
    unfold observeIntoStage routed
    split
    · rfl
    · rfl
  have hquiet : Quiet { p with
      registry := p.registry.fold ev clk.wall p.world .backfill p.routed
      sinceRefresh := p.sinceRefresh + 1 } (p.foldOnly ev clk) := by
    unfold foldOnly
    rw [hobserve]
    dsimp only
    split
    · exact maybeRefreshWot_quiet _ clk
    · exact quiet_refl _
  refine ⟨?_, hquiet.live, hquiet.stages, hquiet.pass, hquiet.store⟩
  have hfold := p.registry.fold_moved ev clk.wall p.world .backfill hrouted
  exact hfold.trans hquiet.still fun _ _ _ _ h h' => by simpa using h.trans h'

theorem foldOnly_spec (p : Pipeline σ ε) (ev : NostrEvent) (clk : Clock)
    (hnodup : p.stage.Nodup) :
    Registry.Pointwise
        (fun i e => Entry.Moved
          (if i ∈ p.routed ∧ e.takes .backfill ev = true then {ev} else 0) e)
        p.registry (p.foldOnly ev clk).registry ∧
      (p.foldOnly ev clk).live = p.live ∧ (p.foldOnly ev clk).stages = p.stages ∧
      (p.foldOnly ev clk).pass = p.pass ∧
      ((p.foldOnly ev clk).store = p.store ∨
        (p.foldOnly ev clk).store = p.store.map (p.foldOnly ev clk).registry.persist) :=
  p.foldOnly_routed ev clk (p.nodup_routed (Or.inr hnodup))

/-- On a live pipeline the event goes to every entry that takes it. -/
theorem foldOnly_live {p : Pipeline σ ε} (hlive : p.live = true) (ev : NostrEvent) (clk : Clock) :
    Registry.Pointwise
        (fun _ e => Entry.Moved (if e.takes .backfill ev = true then {ev} else 0) e)
        p.registry (p.foldOnly ev clk).registry ∧
      (p.foldOnly ev clk).live = true ∧ (p.foldOnly ev clk).stages = p.stages ∧
      (p.foldOnly ev clk).pass = p.pass := by
  obtain ⟨hentries, hl, hstages, hpass, -⟩ :=
    p.foldOnly_routed ev clk (p.nodup_routed (Or.inl hlive))
  refine ⟨⟨hentries.1, ?_⟩, hl.trans hlive, hstages, hpass⟩
  intro i e e' he he'
  have hi : i ∈ p.routed := by
    rw [routed, if_pos hlive]
    exact Registry.mem_all he
  have hm := hentries.2 i e e' he he'
  simp only [hi, true_and] at hm
  exact hm

/-- With no analysis of the pass reading events, those still to be derived take no kind. -/
theorem kinds_nil_of_none {p : Pipeline σ ε} (hnone : p.passHasPendingAnalyses = false) {i : ℕ}
    {e : Entry σ ε} (hi : i ∈ p.stage) (he : p.registry.entries[i]? = some e)
    (hpend : e.needsBackfill = true) : e.analysis.kinds = some [] := by
  rw [passHasPendingAnalyses, List.any_eq_false] at hnone
  have hnot := hnone i hi
  rw [he, Option.any_some, hpend, Bool.true_and] at hnot
  cases hk : e.analysis.kinds with
  | none => simp [hk] at hnot
  | some ks =>
    rw [hk, Option.all_some] at hnot
    simpa using hnot

/-- The files `added` were recorded as finished, and nothing was handed over. -/
structure Recorded (added : String → Prop) (e e' : Entry σ ε) : Prop where
  analysis : e'.analysis = e.analysis
  backfilled : e'.progress.backfilled = e.progress.backfilled
  handed : e'.handed = e.handed
  derived : e.Derived → e'.Derived
  completed : ∀ f, f ∈ e'.progress.rebuild.completed ↔
    f ∈ e.progress.rebuild.completed ∨ added f

theorem Recorded.needsBackfill {added : String → Prop} {e e' : Entry σ ε}
    (h : Recorded added e e') : e'.needsBackfill = e.needsBackfill := by
  rw [Entry.needsBackfill, Entry.needsBackfill, h.backfilled]

theorem Recorded.of_iff {added added' : String → Prop} {e e' : Entry σ ε}
    (h : Recorded added e e') (hiff : ∀ f, added' f ↔ added f) : Recorded added' e e' :=
  ⟨h.analysis, h.backfilled, h.handed, h.derived, fun f => by rw [h.completed, hiff]⟩

theorem Recorded.trans {s t : String → Prop} {e e' e'' : Entry σ ε} (h : Recorded s e e')
    (h' : Recorded t e' e'') : Recorded (fun f => s f ∨ t f) e e'' := by
  refine ⟨h'.analysis.trans h.analysis, h'.backfilled.trans h.backfilled,
    h'.handed.trans h.handed, fun hd => h'.derived (h.derived hd), ?_⟩
  intro f
  rw [h'.completed, h.completed, or_assoc]

theorem recorded_refl (e : Entry σ ε) : Recorded (fun _ => False) e e :=
  ⟨rfl, rfl, rfl, id, fun _ => (or_false _).symm.to_iff⟩

theorem finishFile_recorded (file : String) (e : Entry σ ε) :
    Recorded (fun f => e.needsBackfill = true ∧ f = file) e (e.finishFile file) := by
  unfold Entry.finishFile
  by_cases h : e.needsBackfill = true
  · rw [if_pos h]
    refine ⟨rfl, rfl, rfl, id, ?_⟩
    intro f
    rw [Rebuild.mem_completed_finish, and_iff_right h]
  · rw [if_neg h]
    exact (recorded_refl e).of_iff fun f => by simp [h]

/-- A file is finished for the entries of the stage that are still to be derived. -/
theorem registry_finishFile (r : Registry σ ε) (stage : List ℕ) (file : String) :
    Registry.Pointwise
      (fun i e => Recorded (fun f => i ∈ stage ∧ e.needsBackfill = true ∧ f = file) e)
      r (r.finishFile stage file) := by
  unfold Registry.finishFile
  induction stage generalizing r with
  | nil =>
    exact Registry.pointwise_refl (fun i e => (recorded_refl e).of_iff fun f => by simp) r
  | cons j js ih =>
    rw [List.foldl_cons]
    have hone : Registry.Pointwise
        (fun i e => Recorded (fun f => i = j ∧ e.needsBackfill = true ∧ f = file) e) r
        (r.modify j (Entry.finishFile file)) := by
      refine ⟨List.length_modify .., ?_⟩
      intro i e e' he he'
      rw [Registry.modify_getElem, he] at he'
      by_cases hij : j = i
      · rw [if_pos hij, Option.map_some, Option.some.injEq] at he'
        subst he'
        exact (finishFile_recorded file e).of_iff fun f => by simp [hij]
      · rw [if_neg hij, Option.some.injEq] at he'
        subst he'
        exact (recorded_refl e).of_iff fun f => by simp [Ne.symm hij]
    refine hone.trans (ih _) ?_
    intro i e e' e'' h h'
    refine (h.trans h').of_iff fun f => ?_
    rw [h.needsBackfill, List.mem_cons]
    tauto

/-- **`finishPassFiles`** records the files for the entries of the stage that are still to be
derived, and persists. -/
theorem finishPassFiles_spec (p : Pipeline σ ε) (files : List String) (clk : Clock) :
    Registry.Pointwise
        (fun i e => Recorded (fun f => i ∈ p.stage ∧ e.needsBackfill = true ∧ f ∈ files) e)
        p.registry (p.finishPassFiles files clk).registry ∧
      (p.finishPassFiles files clk).live = p.live ∧
      (p.finishPassFiles files clk).stages = p.stages ∧
      (p.finishPassFiles files clk).pass = p.pass ∧
      (p.finishPassFiles files clk).store =
        p.store.map (p.finishPassFiles files clk).registry.persist := by
  refine ⟨?_, rfl, rfl, rfl, rfl⟩
  have hloop : ∀ (fs : List String) (r : Registry σ ε), Registry.Pointwise
      (fun i e => Recorded (fun f => i ∈ p.stage ∧ e.needsBackfill = true ∧ f ∈ fs) e)
      r (fs.foldl (fun r f => r.finishFile p.stage f) r) := by
    intro fs
    induction fs with
    | nil =>
      intro r
      exact Registry.pointwise_refl (fun i e => (recorded_refl e).of_iff fun f => by simp) r
    | cons g gs ih =>
      intro r
      rw [List.foldl_cons]
      refine (registry_finishFile r p.stage g).trans (ih _) ?_
      intro i e e' e'' h h'
      refine (h.trans h').of_iff fun f => ?_
      rw [h.needsBackfill, List.mem_cons]
      tauto
  exact hloop files p.registry

/-- The entry was handed nothing; with `inStage` it is derived now and its rebuild is over. -/
structure Advanced (inStage : Prop) (e e' : Entry σ ε) : Prop where
  analysis : e'.analysis = e.analysis
  handed : e'.handed = e.handed
  derived : e.Derived → e'.Derived
  done : inStage → e'.needsBackfill = false
  other : ¬ inStage → e'.progress.backfilled = e.progress.backfilled ∧
    e'.progress.rebuild = e.progress.rebuild

/-- What the end of a pass does to the entries of its stage. -/
theorem endPass_getElem (r : Registry σ ε) (stage : List ℕ) (i : ℕ) :
    ((r.markBackfilled stage).clearRebuild stage).entries[i]? =
      r.entries[i]?.map fun e => if i ∈ stage then e.markBackfilled.clearRebuild else e := by
  rw [Registry.clearRebuild_getElem, Registry.markBackfilled_getElem]
  by_cases hi : i ∈ stage
  · simp only [if_pos hi, Option.map_map, Function.comp_def]
  · simp only [if_neg hi, Option.map_id']

/-- **`advancePass`** ends the pass for the entries of its stage. -/
theorem advancePass_spec (p : Pipeline σ ε) (clk : Clock) :
    Registry.Pointwise (fun i => Advanced (i ∈ p.stage)) p.registry
        (p.advancePass clk).1.registry ∧
      (p.advancePass clk).1.live = p.live ∧ (p.advancePass clk).1.stages = p.stages ∧
      (p.advancePass clk).1.store = p.store ∧
      (p.advancePass clk).2 = p.needsAnotherPass ∧
      (p.advancePass clk).1.pass = if p.needsAnotherPass then p.pass + 1 else p.pass := by
  rw [advancePass_eq]
  refine ⟨?_, rfl, rfl, rfl, rfl, rfl⟩
  let m := p.registry.materializeStage p.stage clk.wall p.world
  have hstill : Registry.Still p.registry m.1 :=
    p.registry.materializeStage_still p.stage clk.wall p.world
  have hend : Registry.Pointwise (fun i e e' =>
      e' = if i ∈ p.stage then e.markBackfilled.clearRebuild else e) m.1
      ((m.1.markBackfilled p.stage).clearRebuild p.stage) := by
    refine ⟨?_, ?_⟩
    · rw [Registry.clearRebuild, Registry.length_foldl_modify, Registry.markBackfilled,
        Registry.length_foldl_modify]
    · intro i e e' he he'
      rw [endPass_getElem, he, Option.map_some, Option.some.injEq] at he'
      exact he'.symm
  refine Registry.Pointwise.trans hstill hend ?_
  intro i e e' e'' h h'
  subst h'
  have hhanded : e'.handed = e.handed := by rw [h.handed, add_zero]
  by_cases hi : i ∈ p.stage
  · rw [if_pos hi]
    exact ⟨h.analysis, hhanded, h.derived, fun _ => rfl, fun hn => absurd hi hn⟩
  · rw [if_neg hi]
    exact ⟨h.analysis, hhanded, h.derived, fun hn => absurd hn hi,
      fun _ => ⟨h.backfilled, h.rebuild⟩⟩

end Pipeline

namespace Node

variable {σ ε : Type} {n : Node σ ε}

/-- A pass that is skipped has nothing to read for the analyses it would derive. -/
theorem kinds_nil_of_skips (hskip : n.skipsRead = true) (hindexes : n.pipe.indexesThisPass = true)
    {i : ℕ} {e : Entry σ ε} (hi : i ∈ n.pipe.stage) (he : n.pipe.registry.entries[i]? = some e)
    (hpend : e.needsBackfill = true) : e.analysis.kinds = some [] := by
  have hneeds : n.pipe.passNeedsCorpus = true := by
    rw [Pipeline.passNeedsCorpus, Pipeline.passKinds, hindexes]
    simp
  rw [skipsRead, hneeds, Bool.not_true, Bool.or_false, Bool.and_eq_true] at hskip
  have hnone : n.pipe.passHasPendingAnalyses = false := by simpa using hskip.2
  exact Pipeline.kinds_nil_of_none hnone hi he hpend

end Node

end NostrSearch.Indexer
