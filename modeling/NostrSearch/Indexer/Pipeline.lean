import NostrSearch.Stats.Registry

/-!
# The pipeline and its analyses

The half of `Pipeline` that folds events: which entries an event goes to, the passes a backfill
makes over the corpus, when analysis state is written to the store, and what a reset does. The
index half is in the shard writers. Two clocks are read, the wall clock and the monotonic one,
the latter in nanoseconds; the trust index that a refresh swaps in is read by the index half
only.
-/

namespace NostrSearch.Indexer

open NostrSearch.Core NostrSearch.Stats

/-- What the clocks say at a call. -/
structure Clock where
  /-- `SystemTime::now`, seconds since the epoch -/
  wall : ℕ
  /-- `Instant::now`, nanoseconds -/
  mono : ℕ
deriving DecidableEq

structure PipelineConfig where
  /-- re-materialize every so many processed events -/
  wotRefreshEvery : ℕ
  /-- floor between refreshes -/
  minRefreshInterval : ℕ
  /-- how often analysis state is written to disk -/
  persistInterval : ℕ

/-- One stats engine. `store` has the contents of the state directory, `none` when everything is
in memory. -/
structure Pipeline (σ ε : Type) where
  registry : Registry σ ε
  world : World
  store : Option (StatStore σ)
  cfg : PipelineConfig
  live : Bool
  /-- dependency stages, one for each backfill pass -/
  stages : List (List ℕ)
  /-- which stage the current backfill pass is folding -/
  pass : ℕ
  sinceRefresh : ℕ
  lastRefresh : ℕ
  lastPersist : ℕ
  refreshedOnce : Bool

namespace Pipeline

variable {σ ε : Type}

/-- The stage of the current pass. -/
def stage (p : Pipeline σ ε) : List ℕ := p.stages.getD p.pass []

/-- `registry.persist`, when there is a store. -/
def persist (p : Pipeline σ ε) : Pipeline σ ε :=
  { p with store := p.store.map p.registry.persist }

/-- Re-materialize the world, and persist if it is forced or due. -/
def refreshInner (p : Pipeline σ ε) (forcePersist : Bool) (clk : Clock) : Pipeline σ ε :=
  if p.refreshedOnce && p.sinceRefresh = 0 then p
  else
    let p := { p with refreshedOnce := true, sinceRefresh := 0, lastRefresh := clk.mono }
    match p.registry.materializeAll clk.wall p.world with
    | .error _ => p
    | .ok (registry, world) =>
      let p := { p with registry := registry, world := world }
      if p.store.isSome ∧ (forcePersist = true ∨ p.cfg.persistInterval ≤ clk.mono - p.lastPersist)
      then { p.persist with lastPersist := clk.mono }
      else p

def refreshWot (p : Pipeline σ ε) (clk : Clock) : Pipeline σ ε := p.refreshInner false clk

/-- Refresh only if the floor has elapsed. -/
def maybeRefreshWot (p : Pipeline σ ε) (clk : Clock) : Pipeline σ ε :=
  if clk.mono - p.lastRefresh < p.cfg.minRefreshInterval then { p with sinceRefresh := 0 }
  else p.refreshWot clk

/-- `Pipeline::new` over these analyses, with what is in the state directory. -/
def new (cfg : PipelineConfig) (analyses : List (DynAnalysis σ ε)) (ext : ε)
    (store : Option (StatStore σ)) (clk : Clock) : Except StagesError (Pipeline σ ε) :=
  let registry := Registry.ofAnalyses analyses ext
  let registry := store.elim registry (registry.load clk.wall)
  match registry.stages with
  | .error err => .error err
  | .ok stages =>
    let me : Pipeline σ ε :=
      { registry := registry, world := World.empty, store := store, cfg := cfg, live := false
        stages := stages, pass := 0, sinceRefresh := 0
        lastRefresh := clk.mono - 86400 * 10 ^ 9
        lastPersist := clk.mono, refreshedOnce := false }
    .ok (if 0 < me.registry.totalEvents ∨ me.registry.entries.any (fun e => !e.needsBackfill) = true
      then me.refreshWot clk else me)

/-- Re-attach the shared graph store after a reset. -/
def reattachGraph (p : Pipeline σ ε) : Pipeline σ ε :=
  if p.store.isSome then { p with registry := p.registry.attachAll } else p

def resetAnalysis (p : Pipeline σ ε) (name : String) : Option (Pipeline σ ε × List String) :=
  (p.registry.reset name).map fun r => (({ p with registry := r.1 }.reattachGraph).persist, r.2)

def resetAllAnalyses (p : Pipeline σ ε) : Pipeline σ ε × List String :=
  let r := p.registry.resetAll
  ({ { p with registry := r.1 }.reattachGraph with world := World.empty }.persist, r.2)

/-! ## Folding -/

/-- Fold one event into the analyses, routed to the right dependency stage. -/
def observeIntoStage (p : Pipeline σ ε) (ev : NostrEvent) (now : ℕ) : Pipeline σ ε :=
  if p.live then { p with registry := p.registry.observeBackfill ev now p.world }
  else { p with registry := p.registry.observeBackfillStage p.stage ev now p.world }

def foldOnly (p : Pipeline σ ε) (ev : NostrEvent) (clk : Clock) : Pipeline σ ε :=
  let p := p.observeIntoStage ev clk.wall
  let p := { p with sinceRefresh := p.sinceRefresh + 1 }
  if p.live && decide (p.cfg.wotRefreshEvery ≤ p.sinceRefresh) then p.maybeRefreshWot clk else p

/-! ## Passes -/

/-- Whether this pass writes to the index. -/
def indexesThisPass (p : Pipeline σ ε) : Bool := p.live || decide (p.pass = 0)

def needsAnotherPass (p : Pipeline σ ε) : Bool := decide (p.pass + 1 < p.stages.length)

/-- Whether an analysis that reads events is still to be derived in this pass. -/
def passHasPendingAnalyses (p : Pipeline σ ε) : Bool :=
  p.stage.any fun i => p.registry.entries[i]?.any fun e =>
    e.needsBackfill && e.analysis.kinds.all fun ks => !ks.isEmpty

/-- Kinds this pass needs, or `none` for all of them. -/
def passKinds (p : Pipeline σ ε) : Option (Finset ℕ) :=
  if p.indexesThisPass then none else p.registry.stageKinds p.stage

/-- Whether this pass has to read the corpus at all. -/
def passNeedsCorpus (p : Pipeline σ ε) : Bool := decide (p.passKinds ≠ some ∅)

/-- The pass of entry `i`, from the passes of its dependencies: behind those still to be
derived. -/
def passAfterDeps (r : Registry σ ε) (passOf : List ℕ) (i : ℕ) : ℕ :=
  match r.entries[i]? with
  | none => 0
  | some e =>
    ((e.analysis.deps.filterMap r.indexOf).filter r.pending).map (fun d => passOf.getD d 0 + 1)
      |>.foldl max 0

/-- The pass of each entry, in the order of the stages. -/
def passOf (r : Registry σ ε) (stages : List (List ℕ)) : List ℕ :=
  stages.flatten.foldl (fun acc i => acc.set i (passAfterDeps r acc i))
    (List.replicate r.entries.length 0)

/-- How many passes the entries still to be derived need. -/
def passCount (r : Registry σ ε) (passOf : List ℕ) : ℕ :=
  match (r.all.filter r.pending).map (fun i => passOf.getD i 0 + 1) with
  | [] => 1
  | n :: ns => ns.foldl max n

def planReplay (p : Pipeline σ ε) : Pipeline σ ε × ℕ :=
  match p.registry.stages with
  | .error _ => (p, p.stages.length)
  | .ok stages =>
    let of := passOf p.registry stages
    let passes := passCount p.registry of
    let plan := (List.range passes).map fun k =>
      p.registry.all.filter fun i => min (of.getD i 0) (passes - 1) = k
    ({ p with stages := plan, pass := 0 }, passes)

def planFullBackfill (p : Pipeline σ ε) : Pipeline σ ε × ℕ :=
  match p.registry.stages with
  | .error _ => ({ p with pass := 0 }, p.stages.length)
  | .ok stages => ({ p with stages := stages, pass := 0 }, stages.length)

def passFileDone (p : Pipeline σ ε) (file : String) : Bool := p.registry.fileDoneFor p.stage file

def finishPassFiles (p : Pipeline σ ε) (files : List String) (clk : Clock) : Pipeline σ ε :=
  let registry := files.foldl (fun r f => r.finishFile p.stage f) p.registry
  { { p with registry := registry }.persist with lastPersist := clk.mono }

/-- Materialize the stage of this pass, mark it backfilled, and go to the next pass if there is
one. -/
def advancePass (p : Pipeline σ ε) (clk : Clock) : Pipeline σ ε × Bool :=
  let stage := p.stage
  let m := p.registry.materializeStage stage clk.wall p.world
  let registry := (m.1.markBackfilled stage).clearRebuild stage
  let p := { p with registry := registry, world := m.2 }
  if p.needsAnotherPass then ({ p with pass := p.pass + 1 }, true) else (p, false)

/-- Switch from backfill to live mode. -/
def goLive (p : Pipeline σ ε) (clk : Clock) : Pipeline σ ε :=
  { p.refreshInner true clk with live := true }

/-- Final flush of the stats. -/
def finish (p : Pipeline σ ε) (clk : Clock) : Pipeline σ ε := p.refreshInner true clk

/-- The stage is told by the plan and the pass. -/
theorem stage_congr {p p' : Pipeline σ ε} (hpass : p'.pass = p.pass)
    (hstages : p'.stages = p.stages) : p'.stage = p.stage := by
  rw [stage, stage, hpass, hstages]

/-- Planning a replay changes the passes and nothing else. -/
theorem planReplay_eq (p : Pipeline σ ε) :
    ∃ stages pass, p.planReplay.1 = { p with stages := stages, pass := pass } := by
  unfold planReplay
  split
  · exact ⟨p.stages, p.pass, rfl⟩
  · exact ⟨_, 0, rfl⟩

theorem planFullBackfill_eq (p : Pipeline σ ε) :
    ∃ stages pass, p.planFullBackfill.1 = { p with stages := stages, pass := pass } := by
  unfold planFullBackfill
  split
  · exact ⟨p.stages, 0, rfl⟩
  · exact ⟨_, 0, rfl⟩

/-- The end of a pass, whether another one follows or not. -/
theorem advancePass_eq (p : Pipeline σ ε) (clk : Clock) :
    p.advancePass clk = ({ p with
      registry := ((p.registry.materializeStage p.stage clk.wall p.world).1.markBackfilled
        p.stage).clearRebuild p.stage
      world := (p.registry.materializeStage p.stage clk.wall p.world).2
      pass := if p.needsAnotherPass then p.pass + 1 else p.pass }, p.needsAnotherPass) := by
  have hneeds : ∀ (r : Registry σ ε) w, ({ p with registry := r, world := w } :
      Pipeline σ ε).needsAnotherPass = p.needsAnotherPass := fun _ _ => rfl
  unfold advancePass
  dsimp only
  rw [hneeds]
  cases p.needsAnotherPass with
  | true => rfl
  | false => rfl

end Pipeline

end NostrSearch.Indexer
