import NostrSearch.Indexer.Pipeline
import NostrSearch.Lib.Run
import NostrSearch.Stats.Publish
import NostrSearch.Stats.Restoring

/-!
# The world and the graph it comes from

A pipeline with the trust index its documents are written with, and everything that is done to it
from outside: events are folded and indexed, passes are planned, finished and advanced, the world
is refreshed, and analyses are reset. The writer, the replay and the admin handlers each take the
pipeline lock for one of these at a time, so a run here is any interleaving of them.

`published` and `materialized` are history variables. The first has the follow graphs published
since `reset_analysis` last discarded one, the second says whether the last step published one.

After a publication the world is what the current counts say (`Agrees`), and no pubkey is trusted
that no graph since the last reset trusts, as long as a reset of the follow graph finds a world and
an index with nothing in them (`ResetsBlank`). `reset_analysis` empties neither.
-/

namespace NostrSearch.Indexer

open NostrSearch.Core NostrSearch.Lib NostrSearch.Stats

/-- A pipeline, and the `SharedWot` its index writer reads. -/
structure TrustNode (τ ζ : Type) where
  pipe : Pipeline (FollowGraph ⊕ τ) (GraphStore × ζ)
  wot : WotIndex
  published : List FollowGraph
  materialized : Bool

inductive TrustAct
  /-- fold an event and index it -/
  | process (ev : NostrEvent) (clk : Clock)
  | foldOnly (ev : NostrEvent) (clk : Clock)
  /-- index an event without the pipeline lock -/
  | indexEvent (ev : NostrEvent)
  | refreshWot (clk : Clock)
  | planReplay
  | planFullBackfill
  | finishPassFiles (files : List String) (clk : Clock)
  | advancePass (clk : Clock)
  | goLive (clk : Clock)
  | finish (clk : Clock)
  | resetAnalysis (name : String)
  | resetAllAnalyses

namespace TrustNode

variable {τ ζ : Type}

/-- The current follow graph. -/
def graph (n : TrustNode τ ζ) : FollowGraph := n.pipe.registry.graph

/-- `refresh_inner`, with what it publishes. -/
def refreshInner (n : TrustNode τ ζ) (forcePersist : Bool) (clk : Clock) : TrustNode τ ζ :=
  if n.pipe.refreshedOnce && n.pipe.sinceRefresh = 0 then n
  else
    match n.pipe.registry.materializeAll clk.wall n.pipe.world with
    | .error _ => { n with pipe := n.pipe.refreshInner forcePersist clk }
    | .ok (registry, world) =>
      { pipe := n.pipe.refreshInner forcePersist clk
        wot := WotIndex.fromWorld world
        published := registry.graph :: n.published
        materialized := true }

def maybeRefreshWot (n : TrustNode τ ζ) (clk : Clock) : TrustNode τ ζ :=
  if clk.mono - n.pipe.lastRefresh < n.pipe.cfg.minRefreshInterval then
    { n with pipe := { n.pipe with sinceRefresh := 0 } }
  else n.refreshInner false clk

def foldOnly (n : TrustNode τ ζ) (ev : NostrEvent) (clk : Clock) : TrustNode τ ζ :=
  let p := n.pipe.observeIntoStage ev clk.wall
  let n := { n with pipe := { p with sinceRefresh := p.sinceRefresh + 1 } }
  if n.pipe.live && decide (n.pipe.cfg.wotRefreshEvery ≤ n.pipe.sinceRefresh) then
    n.maybeRefreshWot clk
  else n

def advancePass (n : TrustNode τ ζ) (clk : Clock) : TrustNode τ ζ :=
  let p := (n.pipe.advancePass clk).1
  { pipe := p
    wot := WotIndex.fromWorld p.world
    published := if 0 ∈ n.pipe.stage then p.registry.graph :: n.published else n.published
    materialized := decide (0 ∈ n.pipe.stage) }

/-- One call. Indexing an event reads the trust index, and writes to the shards only. -/
def step (n : TrustNode τ ζ) (a : TrustAct) : Option (TrustNode τ ζ) :=
  let n := { n with materialized := false }
  match a with
  | .process ev clk => some (n.foldOnly ev clk)
  | .foldOnly ev clk => some (n.foldOnly ev clk)
  | .indexEvent _ => some n
  | .refreshWot clk => some (n.refreshInner false clk)
  | .planReplay => some { n with pipe := n.pipe.planReplay.1 }
  | .planFullBackfill => some { n with pipe := n.pipe.planFullBackfill.1 }
  | .finishPassFiles files clk => some { n with pipe := n.pipe.finishPassFiles files clk }
  | .advancePass clk => some (n.advancePass clk)
  | .goLive clk =>
    let n := n.refreshInner true clk
    some { n with pipe := { n.pipe with live := true } }
  | .finish clk => some (n.refreshInner true clk)
  | .resetAnalysis name =>
    (n.pipe.resetAnalysis name).map fun r =>
      { n with
        pipe := r.1
        published := if name = "follow_graph" then [] else n.published }
  | .resetAllAnalyses => some { n with pipe := n.pipe.resetAllAnalyses.1 }

/-- `Pipeline::new`. -/
def boot (ro : Roster τ ζ) (cfg : PipelineConfig) (ext : GraphStore × ζ)
    (store : Option (StatStore (FollowGraph ⊕ τ))) (clk : Clock) : Option (TrustNode τ ζ) :=
  match Pipeline.new cfg ro.analyses ext store clk with
  | .error _ => none
  | .ok p =>
    some
      { pipe := p
        wot := if p.refreshedOnce then WotIndex.fromWorld p.world else WotIndex.empty
        published := if p.refreshedOnce then [p.registry.graph] else []
        materialized := p.refreshedOnce }

/-! ## What is published -/

/-- The world is what the current counts say. -/
def Agrees (n : TrustNode τ ζ) : Prop := ∀ pk, n.pipe.world.stat pk = n.graph.stat pk

/-- The tier an event by this pubkey is indexed with. -/
def indexedTier (n : TrustNode τ ζ) (pubkeyHex : String) : ℕ := n.wot.tierHex pubkeyHex

/-- Who is trusted, by the analyses that fold an event or by the index, is trusted on the strength
of a graph published since the last reset. -/
def OwnTrust (n : TrustNode τ ζ) : Prop :=
  (∀ pk, 1 ≤ n.pipe.world.wotTier pk →
    ∃ g ∈ n.published, n.pipe.world.wotTier pk = (g.stat pk).wotTier) ∧
  ∀ pubkeyHex, 1 ≤ n.indexedTier pubkeyHex → ∃ g ∈ n.published, ∃ pk,
    Hash32.fromHex pubkeyHex = some pk ∧ n.indexedTier pubkeyHex = (g.stat pk).wotTier

/-- The world never outlives the follow graph. -/
def InStep (n : TrustNode τ ζ) : Prop := (n.materialized = true → n.Agrees) ∧ n.OwnTrust

/-- A reset of the follow graph comes before anything was published of it. -/
def ResetsBlank (n : TrustNode τ ζ) : TrustAct → Prop
  | .resetAnalysis name =>
    name = "follow_graph" → n.pipe.world.Blank ∧ ∀ pk, n.wot.tier pk = 0
  | _ => True

/-- What keeps a node in step: whoever is in the world is counted, and what is said of them was
published. -/
structure Inv (ro : Roster τ ζ) (n : TrustNode τ ζ) : Prop where
  runs : ro.Runs n.pipe.registry
  counted : ∀ pk, n.pipe.world.stat pk ≠ {} → pk ∈ n.graph.counts
  shown : ∀ pk, n.pipe.world.stat pk ≠ {} → ∃ g ∈ n.published, n.pipe.world.stat pk = g.stat pk
  indexed : ∀ pk, 1 ≤ n.wot.tier pk → ∃ g ∈ n.published, n.wot.tier pk = (g.stat pk).wotTier
  agrees : n.materialized = true → n.Agrees

variable {ro : Roster τ ζ} {n n' : TrustNode τ ζ}

/-- The pipeline of a node is the pipeline. -/
theorem pipe_refreshInner (n : TrustNode τ ζ) (force : Bool) (clk : Clock) :
    (n.refreshInner force clk).pipe = n.pipe.refreshInner force clk := by
  unfold refreshInner
  split
  case isTrue h => rw [Pipeline.refreshInner, if_pos h]
  case isFalse => split <;> rfl

theorem pipe_foldOnly (n : TrustNode τ ζ) (ev : NostrEvent) (clk : Clock) :
    (n.foldOnly ev clk).pipe = n.pipe.foldOnly ev clk := by
  unfold foldOnly Pipeline.foldOnly
  dsimp only
  split
  · unfold maybeRefreshWot Pipeline.maybeRefreshWot
    split
    · rfl
    · exact pipe_refreshInner _ _ _
  · rfl

theorem Inv.inStep (h : Inv ro n) : n.InStep := by
  refine ⟨h.agrees, ?_, ?_⟩
  · intro pk hpk
    have hne : n.pipe.world.stat pk ≠ {} := by
      intro hblank
      rw [World.wotTier, hblank] at hpk
      exact absurd hpk (by decide)
    obtain ⟨g, hg, hstat⟩ := h.shown pk hne
    exact ⟨g, hg, by rw [World.wotTier, hstat]⟩
  · intro hex hhex
    unfold indexedTier WotIndex.tierHex at hhex ⊢
    cases hpk : Hash32.fromHex hex with
    | none =>
      rw [hpk] at hhex
      exact absurd hhex (by simp)
    | some pk =>
      simp only [hpk] at hhex ⊢
      obtain ⟨g, hg, htier⟩ := h.indexed pk hhex
      exact ⟨g, hg, pk, rfl, htier⟩

/-! ## Steps -/

/-- The follow graph goes on counting whom it counted, and nothing is published. -/
theorem Inv.carried (h : Inv ro n) {p : Pipeline (FollowGraph ⊕ τ) (GraphStore × ζ)}
    (hc : Registry.Carried n.pipe.registry p.registry) (hworld : p.world = n.pipe.world) :
    Inv ro { n with pipe := p, materialized := false } := by
  obtain ⟨hruns, hcounts⟩ := h.runs.carried hc
  refine ⟨hruns, ?_, ?_, h.indexed, nofun⟩
  · intro pk hpk
    rw [hworld] at hpk
    exact hcounts pk (h.counted pk hpk)
  · intro pk hpk
    rw [hworld] at hpk ⊢
    exact h.shown pk hpk

/-- A graph is published over a world with nothing for those it does not count. -/
theorem Inv.publish (h : Inv ro n) {p : Pipeline (FollowGraph ⊕ τ) (GraphStore × ζ)}
    (hruns : ro.Runs p.registry) (hgraph : p.registry.graph = n.graph)
    (hstat : ∀ pk, p.world.stat pk =
      if pk ∈ n.graph.counts then n.graph.stat pk else n.pipe.world.stat pk) :
    Inv ro { pipe := p, wot := WotIndex.fromWorld p.world,
             published := p.registry.graph :: n.published, materialized := true } := by
  have hagrees : ∀ pk, p.world.stat pk = p.registry.graph.stat pk := by
    intro pk
    rw [hstat, hgraph]
    split
    case isTrue => rfl
    case isFalse hpk =>
      rw [FollowGraph.stat_of_notMem hpk]
      by_contra hne
      exact hpk (h.counted pk hne)
  refine ⟨hruns, ?_, ?_, ?_, fun _ => hagrees⟩
  · intro pk hpk
    show pk ∈ p.registry.graph.counts
    by_contra hnot
    rw [hagrees, FollowGraph.stat_of_notMem hnot] at hpk
    exact hpk rfl
  · intro pk _
    exact ⟨p.registry.graph, List.mem_cons_self, hagrees pk⟩
  · intro pk _
    refine ⟨p.registry.graph, List.mem_cons_self, ?_⟩
    rw [WotIndex.tier_fromWorld, World.wotTier, hagrees]

/-- A refresh that goes through has the pipeline take what was materialized. -/
theorem refreshInner_of_ok {p : Pipeline (FollowGraph ⊕ τ) (GraphStore × ζ)} {clk : Clock}
    {rw : Registry (FollowGraph ⊕ τ) (GraphStore × ζ) × World}
    (hgo : ¬ (p.refreshedOnce && p.sinceRefresh = 0) = true)
    (hall : p.registry.materializeAll clk.wall p.world = .ok rw) (force : Bool) :
    (p.refreshInner force clk).registry = rw.1 ∧ (p.refreshInner force clk).world = rw.2 ∧
      (p.refreshInner force clk).refreshedOnce = true := by
  unfold Pipeline.refreshInner
  rw [if_neg hgo]
  simp only [hall]
  split <;> exact ⟨rfl, rfl, rfl⟩

theorem Inv.refreshInner (h : Inv ro n) (force : Bool) (clk : Clock) :
    Inv ro (n.refreshInner force clk) := by
  unfold TrustNode.refreshInner
  split
  case isTrue => exact h
  case isFalse hgo =>
    cases hall : n.pipe.registry.materializeAll clk.wall n.pipe.world with
    | error err =>
      have hpipe : (n.pipe.refreshInner force clk).registry = n.pipe.registry ∧
          (n.pipe.refreshInner force clk).world = n.pipe.world := by
        unfold Pipeline.refreshInner
        rw [if_neg hgo]
        simp [hall]
      refine ⟨?_, ?_, ?_, h.indexed, ?_⟩
      · rw [hpipe.1]
        exact h.runs
      · rw [hpipe.2]
        intro pk hpk
        rw [graph, hpipe.1]
        exact h.counted pk hpk
      · rw [hpipe.2]
        exact h.shown
      · intro hm pk
        rw [hpipe.2, graph, hpipe.1]
        exact h.agrees hm pk
    | ok rw =>
      obtain ⟨hruns, hgraph, hstat⟩ := h.runs.materializeAll hall
      obtain ⟨hreg, hworld, -⟩ := refreshInner_of_ok hgo hall force
      have hpublish := h.publish (p := n.pipe.refreshInner force clk) (by rw [hreg]; exact hruns)
        (by rw [hreg]; exact hgraph) (by rw [hworld]; exact hstat)
      rw [hreg, hworld] at hpublish
      exact hpublish

theorem Inv.foldOnly (h : Inv ro n) (hm : n.materialized = false) (ev : NostrEvent)
    (clk : Clock) : Inv ro (n.foldOnly ev clk) := by
  have hfold : Registry.Carried n.pipe.registry (n.pipe.observeIntoStage ev clk.wall).registry ∧
      (n.pipe.observeIntoStage ev clk.wall).world = n.pipe.world := by
    unfold Pipeline.observeIntoStage
    split
    · exact ⟨Registry.carried_fold _ _ _ _ _ _, rfl⟩
    · exact ⟨Registry.carried_fold _ _ _ _ _ _, rfl⟩
  -- the counters of the pipeline have no part in it
  have hcounted : ∀ k, Inv ro { n with
      pipe := { n.pipe.observeIntoStage ev clk.wall with sinceRefresh := k } } := by
    intro k
    have hc := h.carried (p := { n.pipe.observeIntoStage ev clk.wall with sinceRefresh := k })
      hfold.1 hfold.2
    rw [← hm] at hc
    exact hc
  unfold TrustNode.foldOnly
  dsimp only
  split
  · unfold maybeRefreshWot
    split
    · exact hcounted 0
    · exact (hcounted _).refreshInner false clk
  · exact hcounted _

theorem Inv.advancePass (h : Inv ro n) (clk : Clock) :
    Inv ro (n.advancePass clk) := by
  obtain ⟨hruns, hgraph, hstat⟩ :=
    h.runs.materializeStage n.pipe.stage clk.wall n.pipe.world
  let m := n.pipe.registry.materializeStage n.pipe.stage clk.wall n.pipe.world
  -- the marks and the next pass leave the graph and the world as the stage has them
  have hpipe : (n.pipe.advancePass clk).1.registry =
        (m.1.markBackfilled n.pipe.stage).clearRebuild n.pipe.stage ∧
      (n.pipe.advancePass clk).1.world = m.2 := by
    rw [Pipeline.advancePass_eq]
    exact ⟨rfl, rfl⟩
  have hmarked : ro.Runs (n.pipe.advancePass clk).1.registry := by
    rw [hpipe.1]
    exact (hruns.carried (m.1.carried_advance n.pipe.stage)).1
  have hgraph' : (n.pipe.advancePass clk).1.registry.graph = n.graph := by
    rw [hpipe.1, Registry.graph_advance]
    exact hgraph
  unfold TrustNode.advancePass
  by_cases hstage : 0 ∈ n.pipe.stage
  · simp only [hstage, if_true, decide_true]
    refine h.publish hmarked hgraph' ?_
    intro pk
    rw [hpipe.2, hstat]
    simp only [hstage, true_and]
    rfl
  · have hworld : ∀ pk, (n.pipe.advancePass clk).1.world.stat pk = n.pipe.world.stat pk := by
      intro pk
      rw [hpipe.2, hstat, if_neg (by simp [hstage])]
    simp only [hstage, if_false, decide_false]
    refine ⟨hmarked, ?_, ?_, ?_, nofun⟩
    · intro pk hpk
      rw [hworld] at hpk
      rw [graph, hgraph']
      exact h.counted pk hpk
    · intro pk hpk
      rw [hworld] at hpk ⊢
      exact h.shown pk hpk
    · intro pk hpk
      rw [WotIndex.tier_fromWorld, World.wotTier, hworld] at hpk ⊢
      have hne : n.pipe.world.stat pk ≠ {} := by
        intro hblank
        rw [hblank] at hpk
        exact absurd hpk (by decide)
      obtain ⟨g, hg, hshown⟩ := h.shown pk hne
      exact ⟨g, hg, by rw [hshown]⟩

theorem carried_reattachGraph (p : Pipeline (FollowGraph ⊕ τ) (GraphStore × ζ)) :
    Registry.Carried p.registry p.reattachGraph.registry := by
  unfold Pipeline.reattachGraph
  split
  · exact p.registry.carried_attachAll
  · exact Registry.carried_refl _

theorem world_reattachGraph (p : Pipeline (FollowGraph ⊕ τ) (GraphStore × ζ)) :
    p.reattachGraph.world = p.world := by
  unfold Pipeline.reattachGraph
  split <;> rfl

/-- Whatever is reset, the analyses are those of the roster. -/
theorem runs_reattachGraph {p : Pipeline (FollowGraph ⊕ τ) (GraphStore × ζ)}
    (h : ro.Runs p.registry) : ro.Runs p.reattachGraph.registry :=
  (h.carried (carried_reattachGraph p)).1

theorem Inv.resetAnalysis (h : Inv ro n) {name : String} (hok : n.ResetsBlank (.resetAnalysis name))
    (hstep : n.step (.resetAnalysis name) = some n') : Inv ro n' := by
  unfold step Pipeline.resetAnalysis at hstep
  simp only [Option.map_map, Option.map_eq_some_iff] at hstep
  obtain ⟨⟨r, names⟩, hreset, rfl⟩ := hstep
  dsimp only [Function.comp]
  by_cases hname : name = "follow_graph"
  · obtain ⟨hblank, hwot⟩ := hok hname
    -- there is nothing in the world to outlive the graph
    have hworld : ∀ pk, ({ n.pipe with registry := r }.reattachGraph).persist.world.stat pk = {} := by
      intro pk
      show ({ n.pipe with registry := r }.reattachGraph).world.stat pk = {}
      rw [world_reattachGraph]
      exact hblank pk
    have hruns : ro.Runs r := by
      unfold Registry.reset at hreset
      split at hreset
      case isFalse => cases hreset
      case isTrue =>
        rw [Option.some.injEq, Prod.mk.injEq] at hreset
        rw [← hreset.1]
        exact h.runs.resetWhere _
    refine ⟨runs_reattachGraph (p := { n.pipe with registry := r }) hruns, ?_, ?_, ?_, nofun⟩
    · exact fun pk hpk => absurd (hworld pk) hpk
    · exact fun pk hpk => absurd (hworld pk) hpk
    · intro pk hpk
      have hpk' : 1 ≤ n.wot.tier pk := hpk
      have hzero := hwot pk
      omega
  · rw [if_neg hname]
    have hc : Registry.Carried n.pipe.registry ({ n.pipe with registry := r }.reattachGraph).registry :=
      (h.runs.reset hname hreset).trans (carried_reattachGraph { n.pipe with registry := r })
    exact h.carried (p := ({ n.pipe with registry := r }.reattachGraph).persist) hc
      (world_reattachGraph _)

/-- With everything the world goes as well. -/
theorem Inv.resetAllAnalyses (h : Inv ro n) :
    Inv ro { n with pipe := n.pipe.resetAllAnalyses.1, materialized := false } := by
  have hruns : ro.Runs n.pipe.registry.resetAll.1 := h.runs.resetWhere fun _ => true
  refine ⟨runs_reattachGraph (p := { n.pipe with registry := n.pipe.registry.resetAll.1 }) hruns,
    ?_, ?_, h.indexed, nofun⟩
  · intro pk hpk
    exact absurd (World.stat_empty pk) hpk
  · intro pk hpk
    exact absurd (World.stat_empty pk) hpk

theorem inv_step (h : Inv ro n) {a : TrustAct} (hok : n.ResetsBlank a)
    (hstep : n.step a = some n') : Inv ro n' := by
  -- the flag is taken down first
  have hdown : Inv ro { n with materialized := false } :=
    h.carried (Registry.carried_refl _) rfl
  have hplan : ∀ p : Pipeline (FollowGraph ⊕ τ) (GraphStore × ζ),
      p.registry = n.pipe.registry → p.world = n.pipe.world →
        Inv ro { n with pipe := p, materialized := false } := by
    intro p hreg hworld
    apply h.carried ?_ hworld
    rw [hreg]
    exact Registry.carried_refl _
  cases a with
  | process ev clk =>
    cases hstep
    exact hdown.foldOnly rfl ev clk
  | foldOnly ev clk =>
    cases hstep
    exact hdown.foldOnly rfl ev clk
  | indexEvent ev =>
    cases hstep
    exact hdown
  | refreshWot clk =>
    cases hstep
    exact hdown.refreshInner false clk
  | planReplay =>
    cases hstep
    obtain ⟨stages, pass, hplanned⟩ := n.pipe.planReplay_eq
    exact hplan _ (by rw [hplanned]) (by rw [hplanned])
  | planFullBackfill =>
    cases hstep
    obtain ⟨stages, pass, hplanned⟩ := n.pipe.planFullBackfill_eq
    exact hplan _ (by rw [hplanned]) (by rw [hplanned])
  | finishPassFiles files clk =>
    cases hstep
    refine h.carried ?_ rfl
    have hloop : ∀ (fs : List String) (r : Registry (FollowGraph ⊕ τ) (GraphStore × ζ)),
        Registry.Carried r (fs.foldl (fun r f => r.finishFile n.pipe.stage f) r) := by
      intro fs
      induction fs with
      | nil => exact Registry.carried_refl
      | cons f fs ih =>
        intro r
        exact (r.carried_finishFile n.pipe.stage f).trans (ih _)
    exact hloop files n.pipe.registry
  | advancePass clk =>
    cases hstep
    exact hdown.advancePass clk
  | goLive clk =>
    cases hstep
    have hfresh := hdown.refreshInner true clk
    exact ⟨hfresh.runs, hfresh.counted, hfresh.shown, hfresh.indexed, hfresh.agrees⟩
  | finish clk =>
    cases hstep
    exact hdown.refreshInner true clk
  | resetAnalysis name => exact h.resetAnalysis hok hstep
  | resetAllAnalyses =>
    cases hstep
    exact h.resetAllAnalyses

/-- The first refresh goes through. -/
theorem Inv.warm {q : Pipeline (FollowGraph ⊕ τ) (GraphStore × ζ)} {clk : Clock}
    (h : Inv ro { pipe := q, wot := WotIndex.empty, published := [], materialized := false })
    (hall : ∃ rw, q.registry.materializeAll clk.wall q.world = .ok rw)
    (hfirst : q.refreshedOnce = false) :
    Inv ro
      { pipe := q.refreshWot clk
        wot :=
          if (q.refreshWot clk).refreshedOnce then WotIndex.fromWorld (q.refreshWot clk).world
          else WotIndex.empty
        published :=
          if (q.refreshWot clk).refreshedOnce then [(q.refreshWot clk).registry.graph] else []
        materialized := (q.refreshWot clk).refreshedOnce } := by
  obtain ⟨rw, hall⟩ := hall
  obtain ⟨hruns, hgraph, hstat⟩ := h.runs.materializeAll hall
  obtain ⟨hreg, hworld, honce⟩ :=
    refreshInner_of_ok (by rw [hfirst, Bool.false_and]; nofun) hall false
  simp only [Pipeline.refreshWot, honce, if_true]
  exact h.publish (by rw [hreg]; exact hruns) (by rw [hreg]; exact hgraph)
    (by rw [hworld]; exact hstat)

/-- A pipeline that has just been built. -/
theorem inv_boot {cfg : PipelineConfig} {ext : GraphStore × ζ}
    {store : Option (StatStore (FollowGraph ⊕ τ))} {clk : Clock}
    (h : boot ro cfg ext store clk = some n) : Inv ro n := by
  unfold boot at h
  split at h
  case h_1 => cases h
  case h_2 p hp =>
    rw [Option.some.injEq] at h
    subst h
    unfold Pipeline.new at hp
    dsimp only at hp
    split at hp
    case h_1 => cases hp
    case h_2 stages hstages =>
      rw [Except.ok.injEq] at hp
      -- the pipeline before a warm start, with nothing in its world
      have hcold : ∀ q : Pipeline (FollowGraph ⊕ τ) (GraphStore × ζ), q.world = World.empty →
          q.registry = store.elim (Registry.ofAnalyses ro.analyses ext)
            ((Registry.ofAnalyses ro.analyses ext).load clk.wall) →
          Inv ro { pipe := q, wot := WotIndex.empty, published := [], materialized := false } := by
        intro q hworld hreg
        refine ⟨?_, ?_, ?_, ?_, nofun⟩
        · rw [hreg]
          cases store with
          | none =>
            show (ro.analyses.map Entry.new).map Entry.analysis = ro.analyses
            rw [List.map_map]
            exact List.map_id _
          | some st => exact Registry.analyses_load ro.analyses ext clk.wall st
        · intro pk hpk
          rw [hworld] at hpk
          exact absurd (World.stat_empty pk) hpk
        · intro pk hpk
          rw [hworld] at hpk
          exact absurd (World.stat_empty pk) hpk
        · intro pk hpk
          exact absurd hpk (by simp)
      split at hp
      case isTrue =>
        subst hp
        refine (hcold _ rfl rfl).warm ?_ rfl
        unfold Registry.materializeAll
        rw [hstages]
        exact ⟨_, rfl⟩
      case isFalse =>
        subst hp
        exact hcold _ rfl rfl

/-- **The world never outlives the follow graph**, in any run in which the graph is reset before
anything was published of it. -/
theorem world_in_step {cfg : PipelineConfig} {ext : GraphStore × ζ}
    {store : Option (StatStore (FollowGraph ⊕ τ))} {clk : Clock} {as : List TrustAct}
    (hboot : boot ro cfg ext store clk = some n) (hok : Along step ResetsBlank n as) :
    ∀ u, Visited step n as u → u.InStep := by
  intro u hu
  have hinv : Inv ro u := visited_invariant (fun _ _ _ h ha hs => inv_step h ha hs)
    (inv_boot hboot) hok hu
  exact hinv.inStep

/-! ## A graph discarded before and after it is published -/

/-- The follow graph alone. -/
private def graphOnly : Roster Unit Unit := { others := [], names := nofun, silent := nofun }

private def atNoon : Clock := { wall := 1700000000, mono := 10 ^ 15 }

/-- A pipeline with a state directory, on an empty archive. -/
private def bootEmpty : Option (TrustNode Unit Unit) :=
  boot graphOnly { wotRefreshEvery := 1000, minRefreshInterval := 60, persistInterval := 300 }
    (GraphStore.empty, ()) (some fun _ => none) atNoon

/-- A contact list that names one pubkey ten times. -/
private def tenfold : NostrEvent :=
  { id := "1111111111111111111111111111111111111111111111111111111111111111"
    pubkey := "1111111111111111111111111111111111111111111111111111111111111111"
    createdAt := 1700000000, kind := 3
    tags := List.replicate 10
      ["p", "2222222222222222222222222222222222222222222222222222222222222222"]
    content := "", sig := "" }

private def followed : Pubkey := Vector.replicate 32 0x22

private def resetFirst : List TrustAct :=
  [.resetAnalysis "follow_graph", .foldOnly tenfold atNoon, .refreshWot atNoon]

private def resetAfter : List TrustAct :=
  [.foldOnly tenfold atNoon, .refreshWot atNoon, .resetAnalysis "follow_graph",
    .foldOnly { tenfold with kind := 1 } atNoon, .refreshWot atNoon]

private def blankB (n : TrustNode Unit Unit) : TrustAct → Bool
  | .resetAnalysis _ => decide (n.pipe.world.stats = ∅) && decide (n.wot.tiers = ∅)
  | _ => true

private theorem resetsBlank_of_blankB (n : TrustNode Unit Unit) (a : TrustAct)
    (h : blankB n a = true) : n.ResetsBlank a := by
  cases a with
  | resetAnalysis name =>
    intro _
    rw [blankB, Bool.and_eq_true, decide_eq_true_eq, decide_eq_true_eq] at h
    constructor
    · intro pk
      rw [World.stat, h.1]
      rfl
    · intro pk
      rw [WotIndex.tier, h.2]
      rfl
  | _ => trivial

/-- A graph that is discarded before it is published. -/
theorem reset_first_in_step :
    ∃ n, bootEmpty = some n ∧ ∀ u, Visited step n resetFirst u → u.InStep := by
  obtain ⟨n, hn⟩ : ∃ n, bootEmpty = some n := Option.isSome_iff_exists.mp (by decide +kernel)
  have halong : bootEmpty.any (fun n => alongB step blankB n resetFirst) = true := by
    decide +kernel
  rw [hn, Option.any_some] at halong
  exact ⟨n, hn, world_in_step hn (along_of_alongB resetsBlank_of_blankB halong)⟩

/-- One that is discarded after that: its pubkeys stay in the world, whatever is published next,
and go on being trusted. -/
theorem reset_keeps_world :
    ∃ n, bootEmpty = some n ∧
      (¬ ∀ as u, Visited step n as u → u.materialized = true → u.Agrees) ∧
      ¬ ∀ as u, Visited step n as u → u.OwnTrust := by
  obtain ⟨n, hn⟩ : ∃ n, bootEmpty = some n := Option.isSome_iff_exists.mp (by decide +kernel)
  have hafter : bootEmpty.any (fun n => (run step n resetAfter).any fun u =>
      u.materialized && decide (u.pipe.world.stat followed ≠ u.graph.stat followed)) = true := by
    decide +kernel
  have hdiscarded : bootEmpty.any (fun n => (run step n (resetAfter.take 3)).any fun u =>
      decide (1 ≤ u.pipe.world.wotTier followed) && u.published.isEmpty) = true := by
    decide +kernel
  rw [hn, Option.any_some] at hafter hdiscarded
  refine ⟨n, hn, ?_, ?_⟩
  · intro h
    obtain ⟨u, hu, htest⟩ := (Option.any_eq_true _ _).mp hafter
    rw [Bool.and_eq_true, decide_eq_true_eq] at htest
    exact htest.2 (h resetAfter u ⟨resetAfter, List.prefix_rfl, hu⟩ htest.1 followed)
  · intro h
    obtain ⟨u, hu, htest⟩ := (Option.any_eq_true _ _).mp hdiscarded
    rw [Bool.and_eq_true, decide_eq_true_eq, List.isEmpty_iff] at htest
    obtain ⟨g, hg, -⟩ :=
      (h (resetAfter.take 3) u ⟨_, List.prefix_rfl, hu⟩).1 followed htest.1
    rw [htest.2] at hg
    exact absurd hg List.not_mem_nil

end TrustNode

end NostrSearch.Indexer
