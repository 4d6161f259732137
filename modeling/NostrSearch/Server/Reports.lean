import NostrSearch.Lib.Run
import NostrSearch.Stats.Activity
import NostrSearch.Stats.ActiveUsers
import NostrSearch.Stats.Clients
import NostrSearch.Stats.NewUsers

/-!
# Serving reports

The writer task owns the analyses. On its commit tick it publishes their snapshots into the
`ReportStore`, wholesale; on its delta tick it drains their deltas, patches them into what is
published and then broadcasts them frame by frame. A reset replaces states by their defaults and
publishes.

A dashboard subscribes to the frames and seeds each report from what is published at any time after
that. Frames of a report wait for its seed. There is one subscriber here, which stands for any:
subscribers do not see each other, and none of them is taken to lag.

The state is that of the four analyses that drain deltas. Which of them an event is handed to, and
with which context and store, is up to the gates of the registry and part of the action. A replay
folds into the same analyses from its own thread.
-/

namespace NostrSearch.Server

open NostrSearch.Core NostrSearch.Lib NostrSearch.Stats

/-- What the analyses take from outside. -/
structure Parsers where
  zaps : ZapParsers
  len : Hll → ℕ
  lower : List Char → List Char

/-- The reports with deltas. -/
inductive DeltaReport
  | activity
  | activeUsers
  | newUsers
  | clientTags
deriving DecidableEq

namespace DeltaReport

/-- In the order the pipeline registers them. -/
def all : List DeltaReport := [.activity, .activeUsers, .newUsers, .clientTags]

abbrev State : DeltaReport → Type
  | .activity => Activity
  | .activeUsers => ActiveUsers
  | .newUsers => NewUsers
  | .clientTags => Clients

def reporter (cfg : Parsers) : (i : DeltaReport) → Reporter i.State FirstSeen
  | .activity => Activity.reporter cfg.zaps
  | .activeUsers => ActiveUsers.reporter cfg.len
  | .newUsers => NewUsers.reporter
  | .clientTags => Clients.reporter cfg.lower

def tracked (cfg : Parsers) : (i : DeltaReport) → (i.reporter cfg).Tracked
  | .activity => Activity.tracked cfg.zaps
  | .activeUsers => ActiveUsers.tracked cfg.len
  | .newUsers => NewUsers.tracked
  | .clientTags => Clients.tracked cfg.lower

/-- Whether a reset of `name` resets this analysis: its own, or one of a dependency. Dependencies
go no deeper here. -/
def doomed (cfg : Parsers) (name : String) (i : DeltaReport) : Bool :=
  decide ((i.reporter cfg).analysis.name = name ∨ name ∈ (i.reporter cfg).analysis.deps)

end DeltaReport

/-- One event for one analysis. -/
structure Observed where
  ev : NostrEvent
  ctx : AnalysisCtx
  store : FirstSeen

/-- A client of the report stream: the frames it has not merged yet, and what it holds. -/
structure Subscriber where
  queue : DeltaReport → List Json
  held : DeltaReport → Option Json

/-- The writer's analyses, the `ReportStore`, and a subscriber. -/
structure Node where
  state : (i : DeltaReport) → i.State
  published : DeltaReport → Option Json
  /-- frames of the last delta tick that are not broadcast yet -/
  sending : List (DeltaReport × Json)
  /-- the writer has something to commit -/
  dirty : Bool
  sub : Option Subscriber
  /-- nothing was folded or reset since the last delta tick -/
  ticked : Bool

inductive Action
  /-- the writer takes an event from its queue -/
  | event (handed : DeltaReport → Option Observed)
  /-- a replay folds an event -/
  | replay (handed : DeltaReport → Option Observed)
  | commitTick
  | deltaTick
  /-- the next frame goes out -/
  | send
  /-- a reset; the store is handed over again where there is one -/
  | resetAll (store : Option FirstSeen)
  | resetAnalysis (name : String) (store : Option FirstSeen)
  | subscribe
  | seed (i : DeltaReport)
  /-- the subscriber merges its next frame of a seeded report -/
  | receive (i : DeltaReport)

namespace Node

variable (cfg : Parsers)

/-- Fold an event into the analyses it is handed to. -/
def fold (n : Node) (handed : DeltaReport → Option Observed) : Node :=
  { n with
    state := fun i => (handed i).elim (n.state i) fun o =>
      ((i.reporter cfg).analysis.observe o.ev o.ctx o.store (n.state i)).1
    ticked := false }

/-- `publish_reports`. -/
def publish (n : Node) : Node :=
  { n with published := fun i => some ((i.reporter cfg).snapshot (n.state i)) }

/-- `drain_report_deltas`. -/
def drained (n : Node) (i : DeltaReport) : Option Json :=
  ((i.reporter cfg).drainDelta (n.state i)).2

/-- `drain_report_deltas` and the first half of `apply_deltas`: what is published is patched. -/
def drain (n : Node) : Node :=
  { n with
    state := fun i => ((i.reporter cfg).drainDelta (n.state i)).1
    published := fun i =>
      match n.drained cfg i with
      | none => n.published i
      | some patch => some (Json.mergePatch patch ((n.published i).getD Json.null))
    sending := DeltaReport.all.filterMap fun i => (n.drained cfg i).map fun patch => (i, patch)
    ticked := true }

/-- `reset_to_default` for the analyses that are reset, and `attach_all`. -/
def reset (n : Node) (doomed : DeltaReport → Bool) (store : Option FirstSeen) : Node :=
  { n with
    state := fun i =>
      if doomed i then
        let s := (i.reporter cfg).analysis.default
        store.elim s fun f => (i.reporter cfg).analysis.attach f s
      else n.state i
    ticked := false }

def step (n : Node) : Action → Option Node
  | .event handed => if n.sending = [] then some { n.fold cfg handed with dirty := true } else none
  | .replay handed => some (n.fold cfg handed)
  | .commitTick =>
    if n.sending = [] then
      if n.dirty then some { n.publish cfg with dirty := false } else some n
    else none
  | .deltaTick => if n.sending = [] then some (n.drain cfg) else none
  | .send =>
    match n.sending with
    | [] => none
    | (i, patch) :: rest =>
      some { n with
        sending := rest
        sub := n.sub.map fun s =>
          { s with queue := Function.update s.queue i (s.queue i ++ [patch]) } }
  | .resetAll store =>
    if n.sending = [] then some ((n.reset cfg (fun _ => true) store).publish cfg) else none
  | .resetAnalysis name store =>
    if n.sending = [] then
      some ((n.reset cfg (fun i => i.doomed cfg name) store).publish cfg)
    else none
  | .subscribe => some { n with sub := some { queue := fun _ => [], held := fun _ => none } }
  | .seed i =>
    match n.sub, n.published i with
    | some s, some report =>
      some { n with sub := some { s with held := Function.update s.held i (some report) } }
    | _, _ => none
  | .receive i =>
    match n.sub with
    | none => none
    | some s =>
      match s.queue i, s.held i with
      | patch :: rest, some h =>
        some { n with
          sub := some
            { queue := Function.update s.queue i rest
              held := Function.update s.held i (some (Json.mergePatch patch h)) } }
      | _, _ => none

/-- What a process has when it is up: states from a checkpoint or new, and the first publish. -/
def boot (state : (i : DeltaReport) → i.State) : Node :=
  publish cfg
    { state := state, published := fun _ => none, sending := [], dirty := false, sub := none
      ticked := false }

/-- States a process can come up with. -/
def Booted (state : (i : DeltaReport) → i.State) : Prop :=
  ∀ i, ∃ s store, (i.reporter cfg).Reached s ∧
    state i = (i.reporter cfg).analysis.attach store ((i.reporter cfg).analysis.restored s)

/-- What a subscriber has of a report once it has merged every frame. -/
def mergedAll (frames : List Json) (h : Json) : Json :=
  frames.foldl (fun h patch => Json.mergePatch patch h) h

/-- After a delta tick whose frames are out, whoever merges its frames holds the snapshot. -/
def Converged (n : Node) : Prop :=
  n.ticked = true → n.sending = [] → ∀ s, n.sub = some s → ∀ i h, s.held i = some h →
    mergedAll (s.queue i) h = (i.reporter cfg).snapshot (n.state i)

/-- A reset of this analysis takes nothing away from the subscriber: there is nothing to report
before it, or the subscriber has neither seed nor frames. -/
def Unseen (n : Node) (i : DeltaReport) : Prop :=
  ((i.reporter cfg).snapshot (n.state i) =
      (i.reporter cfg).snapshot (i.reporter cfg).analysis.default ∧ n.drained cfg i = none) ∨
    ∀ s, n.sub = some s → s.queue i = [] ∧ s.held i = none

/-- Resets take nothing away from the subscriber. -/
def ResetsUnseen (n : Node) : Action → Prop
  | .resetAll _ => ∀ i, n.Unseen cfg i
  | .resetAnalysis name _ => ∀ i, DeltaReport.doomed cfg name i = true → n.Unseen cfg i
  | _ => True

end Node

end NostrSearch.Server
