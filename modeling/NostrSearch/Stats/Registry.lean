import NostrSearch.Stats.Progress

/-!
# The registry of analyses

A `Registry` holds analyses of one event stream, each with its own `Progress`. The analyses
are erased as the source's `dyn Analysis` are: a `DynAnalysis σ ε` is what it says about itself
and what it does to a state of type `σ` and to the external store `ε` they all share.

`Entry.fold` is the one path an event takes into an analysis; the four `observe` entry points
differ in the mode and in the entries they go through. `stages` groups the analyses by their
dependencies, `materializeStage` publishes a stage into the `World`, `reset` discards an
analysis with everything that depends on it, and `persist` and `load` are the checkpoint.

`Entry.log` is a history variable: the calls of `observe` the entry's state comes from. It goes
where the state goes, into a checkpoint and back, and nothing reads it.
-/

namespace NostrSearch.Stats

open NostrSearch.Core

/-- How far ahead of the reference clock a `created_at` may be and still be allowed to advance
an analysis watermark. -/
def futureSkewSecs : ℕ := 300

/-- Object-safe view over an analysis with state `σ` and shared external storage `ε`. -/
structure DynAnalysis (σ ε : Type) where
  name : String
  epoch : ℕ
  deps : List String
  refreshInterval : Option ℕ
  /-- kinds this analysis consumes, or `none` for all of them -/
  kinds : Option (List ℕ)
  /-- the state of a new instance -/
  default : σ
  /-- `attach`, which may read the external store -/
  attach : ε → σ → σ
  /-- fold one event; the answer says whether it was folded or filtered -/
  observe : NostrEvent → AnalysisCtx → ε → σ → σ × ε × Bool
  refresh : ε → σ → σ
  contribute : σ → World → World
  /-- clear what this analysis keeps outside itself -/
  onReset : σ → ε → ε
  /-- what is left of the state after it went through a checkpoint -/
  restored : σ → σ

namespace DynAnalysis

variable {σ ε : Type}

/-- Does this analysis want to see `ev`? -/
def wants (a : DynAnalysis σ ε) (ev : NostrEvent) : Bool :=
  match a.kinds with
  | none => true
  | some ks => decide (ev.kind ∈ ks)

end DynAnalysis

/-- One call of `observe`. -/
structure Handed where
  ev : NostrEvent
  ctx : AnalysisCtx

/-- Which policy `fold` applies. -/
inductive FoldMode
  /-- ordered realtime tail -/
  | live
  /-- unordered backfill over the archive -/
  | backfill
deriving DecidableEq

/-- One registered analysis plus its resumable progress. -/
structure Entry (σ ε : Type) where
  analysis : DynAnalysis σ ε
  state : σ
  progress : Progress
  log : List Handed

/-- What a checkpoint has of one analysis. Its state is `none` when the saved bytes do not
deserialize. -/
structure Saved (σ : Type) where
  state : Option σ
  progress : Progress
  log : List Handed

/-- The checkpoints of a `StatStore`, by analysis name. -/
abbrev StatStore (σ : Type) := String → Option (Saved σ)

namespace Entry

variable {σ ε : Type}

def name (e : Entry σ ε) : String := e.analysis.name

def needsBackfill (e : Entry σ ε) : Bool := !e.progress.backfilled

/-- The entry `register` pushes. -/
def new (a : DynAnalysis σ ε) : Entry σ ε :=
  { analysis := a, state := a.default, progress := Progress.fresh a.epoch, log := [] }

/-- The watermark gate applies to live consumption, and to an analysis done backfilling. -/
def ordered (e : Entry σ ε) (mode : FoldMode) : Bool :=
  decide (mode = .live) || !e.needsBackfill

/-- Whether the gate lets the event through. -/
def admits (e : Entry σ ε) (mode : FoldMode) (ev : NostrEvent) (id : EventId) : Bool :=
  !e.ordered mode || e.progress.shouldConsume ev.createdAt id

/-- Hand the event to the analysis. -/
def hand (e : Entry σ ε) (ext : ε) (ev : NostrEvent) (ctx : AnalysisCtx) : Entry σ ε × ε :=
  let r := e.analysis.observe ev ctx ext e.state
  let c := e.progress.counters
  let c' :=
    if r.2.2 then { c with observed := c.observed + 1, consumed := c.consumed + 1 }
    else { c with observed := c.observed + 1, filtered := c.filtered + 1 }
  ({ e with
      state := r.1
      progress := { e.progress with counters := c' }
      log := e.log ++ [{ ev := ev, ctx := ctx }] }, r.2.1)

/-- Record the event as consumed: ordered consumption keeps the count-once boundary set,
unordered tracks the high-water mark without it. -/
def mark (e : Entry σ ε) (ordered : Bool) (ev : NostrEvent) (ctx : AnalysisCtx) : Entry σ ε :=
  if ordered then
    { e with progress :=
        e.progress.advanceBounded ev.createdAt ctx.eventId (satAdd ctx.now futureSkewSecs) }
  else
    { e with progress :=
        { e.progress with
          watermark := max e.progress.watermark ev.createdAt
          events := e.progress.events + 1 } }

/-- One turn of the loop of `Registry::fold`: gate, fold, advance. `none` when the gate is
closed. -/
def fold (e : Entry σ ε) (mode : FoldMode) (ev : NostrEvent) (ctx : AnalysisCtx) (ext : ε) :
    Option (Entry σ ε × ε) :=
  if e.admits mode ev ctx.eventId then
    let r := if e.analysis.wants ev then e.hand ext ev ctx else (e, ext)
    some (r.1.mark (e.ordered mode) ev ctx, r.2)
  else none

/-- What `finish_file` does to each entry of a stage. -/
def finishFile (file : String) (e : Entry σ ε) : Entry σ ε :=
  if e.needsBackfill then
    { e with progress := { e.progress with rebuild := e.progress.rebuild.finish file } }
  else e

def clearRebuild (e : Entry σ ε) : Entry σ ε :=
  { e with progress := { e.progress with rebuild := {} } }

def markBackfilled (e : Entry σ ε) : Entry σ ε :=
  { e with progress := { e.progress with backfilled := true } }

/-- `reset_to_default` and a fresh progress. -/
def reset (e : Entry σ ε) : Entry σ ε := new e.analysis

def saved (e : Entry σ ε) : Saved σ :=
  { state := some (e.analysis.restored e.state), progress := e.progress, log := e.log }

/-- Restore from a checkpoint of the current epoch, with its watermark clamped; anything else
starts fresh. -/
def load (e : Entry σ ε) (now : ℕ) (s : Option (Saved σ)) : Entry σ ε :=
  match s with
  | some sv =>
    if sv.progress.epoch = e.analysis.epoch then
      match sv.state with
      | some st =>
        { e with
          state := st
          progress := sv.progress.clampWatermark (satAdd now futureSkewSecs)
          log := sv.log }
      | none => { e with progress := Progress.fresh e.analysis.epoch }
    else { e with progress := Progress.fresh e.analysis.epoch }
  | none => { e with progress := Progress.fresh e.analysis.epoch }

end Entry

/-- A set of registered analyses that consume the same event stream, and the external store
they share. -/
structure Registry (σ ε : Type) where
  entries : List (Entry σ ε)
  totalEvents : ℕ
  ext : ε

/-- Why `stages` fails. -/
inductive StagesError
  | unknownDep (analysis dep : String)
  | cycle
deriving DecidableEq

namespace Registry

variable {σ ε : Type}

/-- `Registry::new` and one `register` for each analysis. -/
def ofAnalyses (as : List (DynAnalysis σ ε)) (ext : ε) : Registry σ ε :=
  { entries := as.map Entry.new, totalEvents := 0, ext := ext }

def names (r : Registry σ ε) : List String := r.entries.map Entry.name

/-- Change one entry in place. -/
def modify (r : Registry σ ε) (i : ℕ) (f : Entry σ ε → Entry σ ε) : Registry σ ε :=
  { r with entries := r.entries.modify i f }

/-- Whether entry `i` still has to be derived from the corpus. -/
def pending (r : Registry σ ε) (i : ℕ) : Bool := r.entries[i]?.any Entry.needsBackfill

def needsBackfill (r : Registry σ ε) : Bool := r.entries.any Entry.needsBackfill

/-! ## Archive files -/

def fileDoneFor (r : Registry σ ε) (stage : List ℕ) (file : String) : Bool :=
  stage.all fun i => r.entries[i]?.all fun e =>
    !e.needsBackfill || !e.progress.rebuild.needs file

def finishFile (r : Registry σ ε) (stage : List ℕ) (file : String) : Registry σ ε :=
  stage.foldl (fun r i => r.modify i (Entry.finishFile file)) r

def clearRebuild (r : Registry σ ε) (stage : List ℕ) : Registry σ ε :=
  stage.foldl (fun r i => r.modify i Entry.clearRebuild) r

/-! ## Persistence -/

def persist (r : Registry σ ε) (store : StatStore σ) : StatStore σ :=
  r.entries.foldl (fun store e => Function.update store e.name (some e.saved)) store

/-- Hand the external store to every analysis. -/
def attachAll (r : Registry σ ε) : Registry σ ε :=
  { r with entries := r.entries.map fun e => { e with state := e.analysis.attach r.ext e.state } }

def load (r : Registry σ ε) (now : ℕ) (store : StatStore σ) : Registry σ ε :=
  attachAll { r with entries := r.entries.map fun e => e.load now (store e.name) }

/-! ## Dependency staging -/

/-- `name_to_idx`: of two analyses with one name the later. -/
def nameToIdx (r : Registry σ ε) (name : String) : Option ℕ :=
  (List.range r.entries.length).reverse.find? fun i => r.names[i]? = some name

/-- The stage an analysis with these dependencies can go to, or `none` if one of them has
none yet. -/
def readyStage (r : Registry σ ε) (analysis : String) (stageOf : List (Option ℕ)) :
    List String → ℕ → Except StagesError (Option ℕ)
  | [], next => .ok (some next)
  | dep :: deps, next =>
    match r.nameToIdx dep with
    | none => .error (.unknownDep analysis dep)
    | some d =>
      match stageOf.getD d none with
      | some s => r.readyStage analysis stageOf deps (max next (s + 1))
      | none => .ok none

/-- One round over the entries; the flag says whether one was placed. -/
def stagesRound (r : Registry σ ε) :
    List ℕ → List (Option ℕ) × Bool → Except StagesError (List (Option ℕ) × Bool)
  | [], acc => .ok acc
  | i :: is, (stageOf, progressed) =>
    match r.entries[i]?, stageOf.getD i none with
    | some e, none =>
      match r.readyStage e.name stageOf e.analysis.deps 0 with
      | .error err => .error err
      | .ok (some s) => r.stagesRound is (stageOf.set i (some s), true)
      | .ok none => r.stagesRound is (stageOf, progressed)
    | _, _ => r.stagesRound is (stageOf, progressed)

def stagesLoop (r : Registry σ ε) : ℕ → List (Option ℕ) → Except StagesError (List (Option ℕ))
  | 0, stageOf => .ok stageOf
  | rounds + 1, stageOf =>
    match r.stagesRound (List.range r.entries.length) (stageOf, false) with
    | .error err => .error err
    | .ok (stageOf', progressed) =>
      if progressed then r.stagesLoop rounds stageOf' else .ok stageOf'

/-- Topologically group analyses into dependency stages. -/
def stages (r : Registry σ ε) : Except StagesError (List (List ℕ)) :=
  match r.stagesLoop r.entries.length (List.replicate r.entries.length none) with
  | .error err => .error err
  | .ok stageOf =>
    if none ∈ stageOf then .error .cycle
    else
      let maxStage := (stageOf.filterMap id).foldl max 0
      .ok ((List.range (maxStage + 1)).map fun s =>
        (List.range r.entries.length).filter fun i => stageOf.getD i none = some s)

/-! ## Folding -/

/-- One index of the loop of `Registry::fold`. An index past the end, where the source panics,
is skipped. -/
def foldAt (mode : FoldMode) (ev : NostrEvent) (ctx : AnalysisCtx) (acc : Registry σ ε × Bool)
    (i : ℕ) : Registry σ ε × Bool :=
  match acc.1.entries[i]? with
  | none => acc
  | some e =>
    match e.fold mode ev ctx acc.1.ext with
    | none => acc
    | some (e', ext') =>
      ({ acc.1 with entries := acc.1.entries.set i e', ext := ext' }, true)

/-- The single fold path. -/
def fold (r : Registry σ ε) (ev : NostrEvent) (now : ℕ) (world : World) (mode : FoldMode)
    (indices : List ℕ) : Registry σ ε :=
  match Hash32.fromHex ev.pubkey, Hash32.fromHex ev.id with
  | some author, some id =>
    let ctx : AnalysisCtx := { now := now, author := author, eventId := id, world := world }
    let acc := indices.foldl (foldAt mode ev ctx) (r, false)
    if acc.2 then { acc.1 with totalEvents := acc.1.totalEvents + 1 } else acc.1
  | _, _ => r

def all (r : Registry σ ε) : List ℕ := List.range r.entries.length

def observeStage (r : Registry σ ε) (stage : List ℕ) (ev : NostrEvent) (now : ℕ)
    (world : World) : Registry σ ε :=
  r.fold ev now world .live stage

/-- Feed one event to all entries (realtime tail). -/
def observe (r : Registry σ ε) (ev : NostrEvent) (now : ℕ) (world : World) : Registry σ ε :=
  r.fold ev now world .live r.all

/-- Feed one event to all entries during an unordered backfill over the archive. -/
def observeBackfill (r : Registry σ ε) (ev : NostrEvent) (now : ℕ) (world : World) :
    Registry σ ε :=
  r.fold ev now world .backfill r.all

def observeBackfillStage (r : Registry σ ε) (stage : List ℕ) (ev : NostrEvent) (now : ℕ)
    (world : World) : Registry σ ε :=
  r.fold ev now world .backfill stage

/-! ## Materializing -/

/-- Run a due refresh of one entry. -/
def refreshEntry (nowWall : ℕ) (ext : ε) (e : Entry σ ε) : Entry σ ε :=
  match e.analysis.refreshInterval with
  | none => e
  | some d =>
    if d ≤ nowWall - e.progress.lastRefreshWall then
      { e with
        state := e.analysis.refresh ext e.state
        progress :=
          { e.progress with
            lastRefreshWall := nowWall
            counters :=
              { e.progress.counters with refreshCount := e.progress.counters.refreshCount + 1 } } }
    else e

/-- Run due refreshes for `stage` and materialize its producers into `world`. -/
def materializeStage (r : Registry σ ε) (stage : List ℕ) (nowWall : ℕ) (world : World) :
    Registry σ ε × World :=
  stage.foldl (fun acc i =>
    let r' := acc.1.modify i (refreshEntry nowWall acc.1.ext)
    (r', (r'.entries[i]?.elim acc.2 fun e => e.analysis.contribute e.state acc.2))) (r, world)

/-- Refresh and materialize every stage in dependency order. -/
def materializeAll (r : Registry σ ε) (nowWall : ℕ) (world : World) :
    Except StagesError (Registry σ ε × World) :=
  match r.stages with
  | .error err => .error err
  | .ok stages =>
    .ok (stages.foldl (fun acc stage => acc.1.materializeStage stage nowWall acc.2) (r, world))

def markBackfilled (r : Registry σ ε) (stage : List ℕ) : Registry σ ε :=
  stage.foldl (fun r i => r.modify i Entry.markBackfilled) r

/-- Position of the analysis called `name`. -/
def indexOf (r : Registry σ ε) (name : String) : Option ℕ :=
  r.entries.findIdx? fun e => e.name = name

/-- Union of the kinds every analysis in `stage` consumes; `none` when one takes everything. -/
def stageKinds (r : Registry σ ε) : List ℕ → Option (Finset ℕ)
  | [] => some ∅
  | i :: stage =>
    match r.entries[i]? with
    | none => r.stageKinds stage
    | some e =>
      match e.analysis.kinds with
      | none => none
      | some ks => (r.stageKinds stage).map fun all => ks.toFinset ∪ all

/-! ## Resetting -/

/-- One entry of the inner loop of `reset`, with the names doomed so far and the queue. -/
def doomEntry (cur : String) (acc : List String × List String) (e : Entry σ ε) :
    List String × List String :=
  let doomed := if e.name = cur ∧ e.name ∉ acc.1 then acc.1 ++ [e.name] else acc.1
  if cur ∈ e.analysis.deps ∧ e.name ∉ doomed then (doomed ++ [e.name], e.name :: acc.2)
  else (doomed, acc.2)

/-- Transitive closure over reverse dependencies. Every name is queued once, when it is doomed,
so one round for each entry and one for the first name are enough. -/
def doomLoop (r : Registry σ ε) : ℕ → List String → List String → List String
  | 0, _, doomed => doomed
  | _ + 1, [], doomed => doomed
  | fuel + 1, cur :: queue, doomed =>
    let acc := r.entries.foldl (doomEntry cur) (doomed, queue)
    r.doomLoop fuel acc.2 acc.1

def doomed (r : Registry σ ε) (name : String) : List String :=
  r.doomLoop (r.entries.length + 1) [name] []

/-- Reset the entries `p` picks, clearing what they keep outside. -/
def resetWhere (r : Registry σ ε) (p : Entry σ ε → Bool) : Registry σ ε :=
  { r with
    entries := r.entries.map fun e => if p e then e.reset else e
    ext := r.entries.foldl (fun ext e => if p e then e.analysis.onReset e.state ext else ext) r.ext }

/-- Discard an analysis's state and progress, along with everything that depends on it. `none`
if no analysis has that name. -/
def reset (r : Registry σ ε) (name : String) : Option (Registry σ ε × List String) :=
  if name ∈ r.names then
    let doomed := r.doomed name
    some (r.resetWhere fun e => decide (e.name ∈ doomed), doomed.mergeSort (· ≤ ·))
  else none

/-- Reset every analysis, external storage included. -/
def resetAll (r : Registry σ ε) : Registry σ ε × List String :=
  ({ r.resetWhere (fun _ => true) with totalEvents := 0 }, r.names.mergeSort (· ≤ ·))

end Registry

end NostrSearch.Stats
