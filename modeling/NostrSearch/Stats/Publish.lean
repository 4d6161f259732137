import NostrSearch.Stats.Accounting
import NostrSearch.Stats.FollowGraph
import NostrSearch.Stats.Stages

/-!
# What the follow graph publishes

`contribute` writes a pubkey's followers and tier into the world for every pubkey it has a count
of, and leaves the others as they are (`stat_contribute`). So the world after it is what the
counts say if and only if it had nothing for the others (`contribute_exact_iff`). A `WotIndex` is
the tiers of a world, as the index writer looks them up.

The follow graph here is one analysis of several: their states are the two sides of a sum, and
`producer` is it on the left. On the right stands any analysis; none of them publishes followers
or tiers.
-/

namespace NostrSearch.Stats

open NostrSearch.Core

/-- Nothing was published. -/
def World.Blank (w : World) : Prop := ∀ pk, w.stat pk = {}

/-- Compact `pubkey → tier` map, with the non-zero tiers only. -/
structure WotIndex where
  tiers : Finmap (fun _ : Pubkey => ℕ)

namespace WotIndex

def empty : WotIndex := { tiers := ∅ }

/-- Build from a materialized world. -/
def fromWorld (w : World) : WotIndex :=
  { tiers := (sortedKeys w.stats).foldl
      (fun tiers pk => if 0 < w.wotTier pk then tiers.insert pk (w.wotTier pk) else tiers) ∅ }

def tier (index : WotIndex) (pk : Pubkey) : ℕ := (index.tiers.lookup pk).getD 0

/-- Tier for a 64-char hex pubkey. -/
def tierHex (index : WotIndex) (pubkeyHex : String) : ℕ :=
  match Hash32.fromHex pubkeyHex with
  | some pk => index.tier pk
  | none => 0

@[simp] theorem tier_empty (pk : Pubkey) : empty.tier pk = 0 := rfl

/-- The index has the tiers of the world. -/
@[simp] theorem tier_fromWorld (w : World) (pk : Pubkey) :
    (fromWorld w).tier pk = w.wotTier pk := by
  have hloop : ∀ (l : List Pubkey) (t : Finmap (fun _ : Pubkey => ℕ)),
      ((l.foldl (fun tiers k => if 0 < w.wotTier k then tiers.insert k (w.wotTier k) else tiers)
        t).lookup pk).getD 0 =
          if pk ∈ l ∧ 0 < w.wotTier pk then w.wotTier pk else (t.lookup pk).getD 0 := by
    intro l
    induction l with
    | nil => simp
    | cons k l ih =>
      intro t
      rw [List.foldl_cons, ih]
      by_cases hpk : pk = k
      · subst hpk
        by_cases htier : 0 < w.wotTier pk
        · simp [htier]
        · simp [htier]
      · have hmem : pk ∈ k :: l ↔ pk ∈ l := by rw [List.mem_cons, or_iff_right hpk]
        simp only [hmem]
        split
        · rfl
        · split
          · rw [Finmap.lookup_insert_of_ne _ hpk]
          · rfl
  rw [tier, fromWorld, hloop, Finmap.lookup_empty, Option.getD_none]
  split
  case isTrue => rfl
  case isFalse h =>
    -- a pubkey that is not in the world has no tier
    by_cases hmem : pk ∈ sortedKeys w.stats
    · have hzero : ¬ 0 < w.wotTier pk := fun h' => h ⟨hmem, h'⟩
      omega
    · rw [mem_sortedKeys, Finmap.mem_keys] at hmem
      rw [World.wotTier, World.stat, Finmap.lookup_eq_none.mpr hmem]
      rfl

end WotIndex

namespace FollowGraph

/-! ## Counts once made stay -/

theorem mem_setCount {s : FollowGraph} {p q : Pubkey} (c : ℕ) (h : p ∈ s.counts) :
    p ∈ (s.setCount q c).counts := Finmap.mem_insert.mpr (Or.inr h)

theorem mem_applyDelta {s : FollowGraph} {p : Pubkey} (followed : List Pubkey) (delta : ℤ)
    (h : p ∈ s.counts) : p ∈ (s.applyDelta followed delta).counts := by
  induction followed generalizing s with
  | nil => exact h
  | cons q qs ih =>
    rw [applyDelta_cons]
    exact ih (mem_setCount _ h)

theorem mem_observe {s : FollowGraph} {p : Pubkey} (ev : NostrEvent) (graph : GraphStore)
    (h : p ∈ s.counts) : p ∈ (observe ev graph s).1.counts := by
  rcases observe_cases ev graph s with ⟨author, -, heq⟩ | ⟨-, heq⟩
  · rw [heq]
    exact mem_applyDelta _ _ (mem_applyDelta _ _ h)
  · rw [heq]
    exact h

theorem mem_attach {s : FollowGraph} {p : Pubkey} (graph : GraphStore) (h : p ∈ s.counts) :
    p ∈ (s.attach graph).counts := by
  have hne : s.counts ≠ ∅ := by
    intro hempty
    rw [hempty] at h
    exact absurd h (Finmap.notMem_empty)
  rw [attach_of_ne hne]
  exact h

end FollowGraph

/-! ## One analysis of several -/

namespace DynAnalysis

variable {α β γ δ : Type}

/-- The state of an analysis on the left. A state of another one is none of its own. -/
def ownState (a : DynAnalysis α γ) (s : α ⊕ β) : α := s.elim id fun _ => a.default

/-- The analysis with its state on the left. -/
def left (a : DynAnalysis α γ) : DynAnalysis (α ⊕ β) (γ × δ) where
  name := a.name
  epoch := a.epoch
  deps := a.deps
  refreshInterval := a.refreshInterval
  kinds := a.kinds
  default := .inl a.default
  attach := fun ext s => .inl (a.attach ext.1 (a.ownState s))
  observe := fun ev ctx ext s =>
    let r := a.observe ev ctx ext.1 (a.ownState s)
    (.inl r.1, (r.2.1, ext.2), r.2.2)
  refresh := fun ext s => .inl (a.refresh ext.1 (a.ownState s))
  contribute := fun s w => a.contribute (a.ownState s) w
  onReset := fun s ext => (a.onReset (a.ownState s) ext.1, ext.2)
  restored := fun s => .inl (a.restored (a.ownState s))

end DynAnalysis

namespace FollowGraph

variable {τ ζ : Type}

/-- `follow_graph` next to analyses with states in `τ` and an external store `ζ`. -/
def producer : DynAnalysis (FollowGraph ⊕ τ) (GraphStore × ζ) := analysis.left

/-- The follow graph of a state. -/
def ofState (s : FollowGraph ⊕ τ) : FollowGraph := analysis.ownState s

end FollowGraph

/-- The analyses of a pipeline: the follow graph first, and others that publish nothing it
publishes. -/
structure Roster (τ ζ : Type) where
  others : List (DynAnalysis (FollowGraph ⊕ τ) (GraphStore × ζ))
  names : ∀ a ∈ others, a.name ≠ "follow_graph"
  silent : ∀ a ∈ others, ∀ s w, a.contribute s w = w

namespace Roster

variable {τ ζ : Type}

def analyses (ro : Roster τ ζ) : List (DynAnalysis (FollowGraph ⊕ τ) (GraphStore × ζ)) :=
  FollowGraph.producer :: ro.others

/-- The registry has these analyses. -/
def Runs (ro : Roster τ ζ) (r : Registry (FollowGraph ⊕ τ) (GraphStore × ζ)) : Prop :=
  r.entries.map Entry.analysis = ro.analyses

end Roster

namespace Registry

variable {τ ζ : Type} {ro : Roster τ ζ} {r r' : Registry (FollowGraph ⊕ τ) (GraphStore × ζ)}

/-- The follow graph of a registry. -/
def graph (r : Registry (FollowGraph ⊕ τ) (GraphStore × ζ)) : FollowGraph :=
  r.entries[0]?.elim FollowGraph.default fun e => FollowGraph.ofState e.state

/-- The entry is of the analysis it was of, and if that is the follow graph it counts whoever it
counted. -/
def Kept (e e' : Entry (FollowGraph ⊕ τ) (GraphStore × ζ)) : Prop :=
  e'.analysis = e.analysis ∧ (e.analysis = FollowGraph.producer →
    ∀ pk ∈ (FollowGraph.ofState e.state).counts, pk ∈ (FollowGraph.ofState e'.state).counts)

theorem kept_refl (e : Entry (FollowGraph ⊕ τ) (GraphStore × ζ)) : Kept e e :=
  ⟨rfl, fun _ _ h => h⟩

theorem Kept.trans {e e' e'' : Entry (FollowGraph ⊕ τ) (GraphStore × ζ)} (h : Kept e e')
    (h' : Kept e' e'') : Kept e e'' :=
  ⟨h'.1.trans h.1, fun ha pk hpk => h'.2 (h.1.trans ha) pk (h.2 ha pk hpk)⟩

/-- Only the progress changed. -/
theorem kept_of_state {e e' : Entry (FollowGraph ⊕ τ) (GraphStore × ζ)}
    (ha : e'.analysis = e.analysis) (hs : e'.state = e.state) : Kept e e' :=
  ⟨ha, fun _ pk hpk => by rwa [hs]⟩

theorem kept_foldOr (e : Entry (FollowGraph ⊕ τ) (GraphStore × ζ)) (mode : FoldMode)
    (ev : NostrEvent) (ctx : AnalysisCtx) (ext : GraphStore × ζ) :
    Kept e (e.foldOr mode ev ctx ext) := by
  unfold Entry.foldOr Entry.fold
  split
  case isFalse => exact kept_refl e
  case isTrue =>
    have hmark : ∀ (x : Entry (FollowGraph ⊕ τ) (GraphStore × ζ)) o,
        Kept x (x.mark o ev ctx) := by
      intro x o
      refine kept_of_state (x.mark_analysis o ev ctx) ?_
      unfold Entry.mark
      split <;> rfl
    rw [Option.elim_some]
    split
    case isFalse => exact hmark e _
    case isTrue =>
      have hhand : Kept e (e.hand ext ev ctx).1 := by
        refine ⟨rfl, ?_⟩
        intro ha pk hpk
        show pk ∈ (FollowGraph.ofState (e.analysis.observe ev ctx ext e.state).1).counts
        rw [ha]
        exact FollowGraph.mem_observe ev ext.1 hpk
      exact hhand.trans (hmark _ _)

theorem kept_attach (e : Entry (FollowGraph ⊕ τ) (GraphStore × ζ)) (ext : GraphStore × ζ) :
    Kept e { e with state := e.analysis.attach ext e.state } := by
  refine ⟨rfl, ?_⟩
  intro ha pk hpk
  show pk ∈ (FollowGraph.ofState (e.analysis.attach ext e.state)).counts
  rw [ha]
  exact FollowGraph.mem_attach ext.1 hpk

/-- The follow graph is never refreshed. -/
theorem kept_refreshEntry (e : Entry (FollowGraph ⊕ τ) (GraphStore × ζ)) (nowWall : ℕ)
    (ext : GraphStore × ζ) : Kept e (refreshEntry nowWall ext e) ∧
      (e.analysis = FollowGraph.producer → refreshEntry nowWall ext e = e) := by
  have hnone : e.analysis = FollowGraph.producer → refreshEntry nowWall ext e = e := by
    intro ha
    unfold refreshEntry
    rw [ha]
    rfl
  refine ⟨?_, hnone⟩
  constructor
  · unfold refreshEntry
    split
    · rfl
    · split <;> rfl
  · intro ha pk hpk
    rwa [hnone ha]

/-- `Kept` of every entry. -/
abbrev Carried (r r' : Registry (FollowGraph ⊕ τ) (GraphStore × ζ)) : Prop :=
  Pointwise (fun _ => Kept) r r'

theorem carried_refl (r : Registry (FollowGraph ⊕ τ) (GraphStore × ζ)) : Carried r r :=
  pointwise_refl (fun _ e => kept_refl e) r

theorem Carried.trans {r'' : Registry (FollowGraph ⊕ τ) (GraphStore × ζ)} (h : Carried r r')
    (h' : Carried r' r'') : Carried r r'' :=
  Pointwise.trans h h' fun _ _ _ _ hk hk' => hk.trans hk'

/-- The entries are changed one by one. -/
theorem carried_map {f : Entry (FollowGraph ⊕ τ) (GraphStore × ζ) →
      Entry (FollowGraph ⊕ τ) (GraphStore × ζ)}
    (hf : ∀ e ∈ r.entries, Kept e (f e)) (hr : r'.entries = r.entries.map f) : Carried r r' := by
  refine ⟨by rw [hr, List.length_map], ?_⟩
  intro i e e' he he'
  rw [hr, List.getElem?_map, he, Option.map_some, Option.some.injEq] at he'
  subst he'
  exact hf e (List.mem_of_getElem? he)

theorem carried_modify (r : Registry (FollowGraph ⊕ τ) (GraphStore × ζ)) (i : ℕ)
    {f : Entry (FollowGraph ⊕ τ) (GraphStore × ζ) → Entry (FollowGraph ⊕ τ) (GraphStore × ζ)}
    (hf : ∀ e, Kept e (f e)) : Carried r (r.modify i f) := by
  refine ⟨List.length_modify .., ?_⟩
  intro j e e' he he'
  rw [modify_getElem, he] at he'
  split at he'
  · rw [Option.map_some, Option.some.injEq] at he'
    subst he'
    exact hf e
  · rw [Option.some.injEq] at he'
    subst he'
    exact kept_refl e

theorem carried_foldl_modify (stage : List ℕ) (r : Registry (FollowGraph ⊕ τ) (GraphStore × ζ))
    {f : Entry (FollowGraph ⊕ τ) (GraphStore × ζ) → Entry (FollowGraph ⊕ τ) (GraphStore × ζ)}
    (hf : ∀ e, Kept e (f e)) : Carried r (stage.foldl (fun r i => r.modify i f) r) := by
  induction stage generalizing r with
  | nil => exact carried_refl r
  | cons i is ih =>
    rw [List.foldl_cons]
    exact (r.carried_modify i hf).trans (ih _)

theorem carried_foldl (mode : FoldMode) (ev : NostrEvent) (ctx : AnalysisCtx) (indices : List ℕ)
    (acc : Registry (FollowGraph ⊕ τ) (GraphStore × ζ) × Bool) :
    Carried acc.1 (indices.foldl (foldAt mode ev ctx) acc).1 := by
  induction indices generalizing acc with
  | nil => exact carried_refl acc.1
  | cons i is ih =>
    rw [List.foldl_cons]
    refine Carried.trans ?_ (ih _)
    refine ⟨foldAt_length acc i, ?_⟩
    intro j e e' he he'
    by_cases hij : i = j
    · subst hij
      rw [foldAt_self, he, Option.map_some, Option.some.injEq] at he'
      subst he'
      exact kept_foldOr e mode ev ctx acc.1.ext
    · rw [foldAt_of_ne acc hij, he, Option.some.injEq] at he'
      subst he'
      exact kept_refl e

theorem carried_fold (r : Registry (FollowGraph ⊕ τ) (GraphStore × ζ)) (ev : NostrEvent)
    (now : ℕ) (world : World) (mode : FoldMode) (indices : List ℕ) :
    Carried r (r.fold ev now world mode indices) := by
  unfold fold
  split
  · dsimp only
    split
    · exact carried_foldl mode ev _ indices (r, false)
    · exact carried_foldl mode ev _ indices (r, false)
  · exact carried_refl r

theorem carried_attachAll (r : Registry (FollowGraph ⊕ τ) (GraphStore × ζ)) :
    Carried r r.attachAll :=
  carried_map (fun e _ => kept_attach e r.ext) rfl

theorem carried_finishFile (r : Registry (FollowGraph ⊕ τ) (GraphStore × ζ)) (stage : List ℕ)
    (file : String) : Carried r (r.finishFile stage file) := by
  apply carried_foldl_modify
  intro e
  unfold Entry.finishFile
  split
  · exact kept_of_state rfl rfl
  · exact kept_refl e

theorem carried_advance (r : Registry (FollowGraph ⊕ τ) (GraphStore × ζ)) (stage : List ℕ) :
    Carried r ((r.markBackfilled stage).clearRebuild stage) := by
  have hmark : Carried r (r.markBackfilled stage) :=
    r.carried_foldl_modify stage fun e => kept_of_state rfl rfl
  exact hmark.trans (carried_foldl_modify stage _ fun e => kept_of_state rfl rfl)

theorem graph_advance (r : Registry (FollowGraph ⊕ τ) (GraphStore × ζ)) (stage : List ℕ) :
    ((r.markBackfilled stage).clearRebuild stage).graph = r.graph := by
  rw [graph, clearRebuild_getElem, markBackfilled_getElem, graph]
  split
  · cases r.entries[0]? <;> rfl
  · rfl

/-- A reset that leaves the follow graph out. -/
theorem carried_resetWhere {p : Entry (FollowGraph ⊕ τ) (GraphStore × ζ) → Bool}
    (hp : ∀ e, e.analysis = FollowGraph.producer → p e = false) :
    Carried r (r.resetWhere p) := by
  refine carried_map (f := fun e => if p e then e.reset else e) ?_ rfl
  intro e _
  split
  case isTrue h =>
    refine ⟨rfl, ?_⟩
    intro ha
    rw [hp e ha] at h
    cases h
  case isFalse => exact kept_refl e

end Registry

namespace Roster

variable {τ ζ : Type} {ro : Roster τ ζ} {r r' : Registry (FollowGraph ⊕ τ) (GraphStore × ζ)}

/-- The follow graph is the first of the analyses. -/
theorem Runs.first (h : ro.Runs r) :
    ∃ e, r.entries[0]? = some e ∧ e.analysis = FollowGraph.producer ∧
      r.graph = FollowGraph.ofState e.state := by
  unfold Runs analyses at h
  cases hr : r.entries with
  | nil =>
    rw [hr] at h
    cases h
  | cons e es =>
    rw [hr, List.map_cons, List.cons.injEq] at h
    refine ⟨e, rfl, h.1, ?_⟩
    rw [Registry.graph, hr]
    rfl

theorem Runs.other (h : ro.Runs r) {i : ℕ} {e : Entry (FollowGraph ⊕ τ) (GraphStore × ζ)}
    (hi : i ≠ 0) (he : r.entries[i]? = some e) : e.analysis ∈ ro.others := by
  have hget : (r.entries.map Entry.analysis)[i]? = some e.analysis := by
    rw [List.getElem?_map, he, Option.map_some]
  obtain ⟨j, rfl⟩ := Nat.exists_eq_succ_of_ne_zero hi
  rw [h, analyses, List.getElem?_cons_succ] at hget
  exact List.mem_of_getElem? hget

theorem Runs.carried (h : ro.Runs r) (hc : Registry.Carried r r') :
    ro.Runs r' ∧ ∀ pk ∈ r.graph.counts, pk ∈ r'.graph.counts := by
  have hruns : ro.Runs r' := by
    rw [Runs, ← h]
    apply List.ext_getElem?
    intro i
    rw [List.getElem?_map, List.getElem?_map]
    cases he : r.entries[i]? with
    | none =>
      have he' : r'.entries[i]? = none := by
        rw [List.getElem?_eq_none_iff, hc.1, ← List.getElem?_eq_none_iff, he]
      rw [he']
    | some e =>
      obtain ⟨e', he', hk⟩ := hc.forth he
      rw [he', Option.map_some, Option.map_some, hk.1]
  refine ⟨hruns, ?_⟩
  obtain ⟨e, he, ha, hg⟩ := h.first
  obtain ⟨e', he', -, hg'⟩ := hruns.first
  rw [hg, hg']
  exact (hc.2 0 e e' he he').2 ha

/-- **`materialize_stage`** publishes the follow graph, if it is in the stage. -/
theorem Runs.materializeStage (h : ro.Runs r) (stage : List ℕ) (nowWall : ℕ) (w : World) :
    ro.Runs (r.materializeStage stage nowWall w).1 ∧
      (r.materializeStage stage nowWall w).1.graph = r.graph ∧
      ∀ pk, (r.materializeStage stage nowWall w).2.stat pk =
        if 0 ∈ stage ∧ pk ∈ r.graph.counts then r.graph.stat pk else w.stat pk := by
  unfold Registry.materializeStage
  induction stage generalizing r w with
  | nil => exact ⟨h, rfl, fun pk => by simp⟩
  | cons i is ih =>
    rw [List.foldl_cons]
    dsimp only
    -- one entry is refreshed, and contributes
    have hcarried := r.carried_modify i fun e => (Registry.kept_refreshEntry e nowWall r.ext).1
    have hruns : ro.Runs (r.modify i (Registry.refreshEntry nowWall r.ext)) :=
      (h.carried hcarried).1
    obtain ⟨e, he, ha, hg⟩ := h.first
    have hfirst : (r.modify i (Registry.refreshEntry nowWall r.ext)).entries[0]? = some e := by
      rw [Registry.modify_getElem, he, Option.map_some,
        (Registry.kept_refreshEntry e nowWall r.ext).2 ha, ite_self]
    have hgraph : (r.modify i (Registry.refreshEntry nowWall r.ext)).graph = r.graph := by
      rw [Registry.graph, hfirst, hg]
      rfl
    have hworld : ∀ pk, ((r.modify i (Registry.refreshEntry nowWall r.ext)).entries[i]?.elim w
        fun x => x.analysis.contribute x.state w).stat pk =
          if i = 0 ∧ pk ∈ r.graph.counts then r.graph.stat pk else w.stat pk := by
      intro pk
      by_cases hi : i = 0
      · subst hi
        rw [hfirst, Option.elim_some, ha, hg]
        show ((FollowGraph.ofState e.state).contribute w).stat pk = _
        rw [FollowGraph.stat_contribute]
        simp
      · rw [if_neg (by simp [hi])]
        cases hx : (r.modify i (Registry.refreshEntry nowWall r.ext)).entries[i]? with
        | none => rfl
        | some x => rw [Option.elim_some, ro.silent _ (hruns.other hi hx)]
    obtain ⟨hruns', hgraph', hstat⟩ := ih hruns
      ((r.modify i (Registry.refreshEntry nowWall r.ext)).entries[i]?.elim w
        fun x => x.analysis.contribute x.state w)
    refine ⟨hruns', hgraph'.trans hgraph, ?_⟩
    intro pk
    rw [hstat pk, hgraph, hworld pk]
    by_cases hpk : pk ∈ r.graph.counts
    · by_cases hi : i = 0
      · simp [hi, hpk]
      · simp [Ne.symm hi, hi, hpk]
    · simp [hpk]

/-- **`materialize_all`** publishes the follow graph. -/
theorem Runs.materializeAll (h : ro.Runs r) {nowWall : ℕ} {w : World}
    {rw : Registry (FollowGraph ⊕ τ) (GraphStore × ζ) × World}
    (hall : r.materializeAll nowWall w = .ok rw) :
    ro.Runs rw.1 ∧ rw.1.graph = r.graph ∧
      ∀ pk, rw.2.stat pk = if pk ∈ r.graph.counts then r.graph.stat pk else w.stat pk := by
  unfold Registry.materializeAll at hall
  split at hall
  · cases hall
  case h_2 stages hstages =>
    rw [Except.ok.injEq] at hall
    subst hall
    have hloop : ∀ (sts : List (List ℕ)) (acc : Registry (FollowGraph ⊕ τ) (GraphStore × ζ) × World),
        ro.Runs acc.1 →
        let end' := sts.foldl (fun acc stage => acc.1.materializeStage stage nowWall acc.2) acc
        ro.Runs end'.1 ∧ end'.1.graph = acc.1.graph ∧ ∀ pk, end'.2.stat pk =
          if 0 ∈ sts.flatten ∧ pk ∈ acc.1.graph.counts then acc.1.graph.stat pk
          else acc.2.stat pk := by
      intro sts
      induction sts with
      | nil => exact fun acc hacc => ⟨hacc, rfl, fun pk => by simp⟩
      | cons st sts ih =>
        intro acc hacc
        obtain ⟨hruns, hgraph, hstat⟩ := hacc.materializeStage st nowWall acc.2
        obtain ⟨hruns', hgraph', hstat'⟩ := ih _ hruns
        refine ⟨hruns', hgraph'.trans hgraph, ?_⟩
        intro pk
        rw [List.foldl_cons, hstat' pk, hgraph, hstat pk]
        simp only [List.flatten_cons, List.mem_append]
        by_cases hpk : pk ∈ acc.1.graph.counts
        · by_cases hst : 0 ∈ st
          · simp [hst, hpk]
          · simp [hst, hpk]
        · simp [hpk]
    obtain ⟨hruns, hgraph, hstat⟩ := hloop stages (r, w) h
    refine ⟨hruns, hgraph, ?_⟩
    -- the first entry is in one of the stages
    obtain ⟨stageOf, hstaged⟩ := Registry.stages_staged hstages
    obtain ⟨e, he, -⟩ := h.first
    have hlen : 0 < r.entries.length := (List.getElem?_eq_some_iff.mp he).1
    have hmem : 0 ∈ stages.flatten := by
      apply List.mem_flatten.mpr
      refine ⟨_, List.mem_of_getElem? (hstaged.get (stageOf 0) (hstaged.lt 0 hlen)), ?_⟩
      simp [hlen]
    intro pk
    rw [hstat pk]
    simp only [hmem, true_and]

theorem Runs.producer_of_name (h : ro.Runs r) {e : Entry (FollowGraph ⊕ τ) (GraphStore × ζ)}
    (he : e ∈ r.entries) (hname : e.name = "follow_graph") : e.analysis = FollowGraph.producer := by
  have hmem : e.analysis ∈ ro.analyses := by
    rw [← h]
    exact List.mem_map_of_mem he
  rcases List.mem_cons.mp hmem with hfirst | hother
  · exact hfirst
  · exact absurd hname (ro.names _ hother)

/-- Only its own name dooms the follow graph: it depends on nothing. -/
theorem Runs.doomed (h : ro.Runs r) {name : String} (hname : name ≠ "follow_graph") :
    "follow_graph" ∉ r.doomed name := by
  -- neither doomed nor queued, after a turn at some of the entries
  have hentries : ∀ (es : List (Entry (FollowGraph ⊕ τ) (GraphStore × ζ))) (cur : String)
      (acc : List String × List String), (∀ e ∈ es, e ∈ r.entries) → cur ≠ "follow_graph" →
      "follow_graph" ∉ acc.1 → "follow_graph" ∉ acc.2 →
        "follow_graph" ∉ (es.foldl (Registry.doomEntry cur) acc).1 ∧
          "follow_graph" ∉ (es.foldl (Registry.doomEntry cur) acc).2 := by
    intro es cur
    induction es with
    | nil => exact fun acc _ _ hdoomed hqueue => ⟨hdoomed, hqueue⟩
    | cons e es ih =>
      intro acc hes hcur hdoomed hqueue
      rw [List.foldl_cons]
      have hturn : "follow_graph" ∉ (Registry.doomEntry cur acc e).1 ∧
          "follow_graph" ∉ (Registry.doomEntry cur acc e).2 := by
        unfold Registry.doomEntry
        by_cases he : e.name = "follow_graph"
        · have hdeps : e.analysis.deps = [] := by
            rw [h.producer_of_name (hes e List.mem_cons_self) he]
            rfl
          simp [hdeps, he, Ne.symm hcur, hdoomed, hqueue]
        · dsimp only
          split <;> split <;> simp [hdoomed, hqueue, Ne.symm he]
      exact ih _ (fun x hx => hes x (List.mem_cons_of_mem e hx)) hcur hturn.1 hturn.2
  have hloop : ∀ (fuel : ℕ) (queue doomed : List String), "follow_graph" ∉ queue →
      "follow_graph" ∉ doomed → "follow_graph" ∉ r.doomLoop fuel queue doomed := by
    intro fuel
    induction fuel with
    | zero => exact fun _ _ _ hdoomed => hdoomed
    | succ fuel ih =>
      intro queue doomed hqueue hdoomed
      cases queue with
      | nil => exact hdoomed
      | cons cur queue =>
        rw [List.mem_cons, not_or] at hqueue
        rw [Registry.doomLoop]
        obtain ⟨hd, hq⟩ := hentries r.entries cur (doomed, queue) (fun e he => he)
          (Ne.symm hqueue.1) hdoomed hqueue.2
        exact ih _ _ hq hd
  exact hloop _ _ _ (by simpa using Ne.symm hname) List.not_mem_nil

/-- A reset of another analysis leaves the follow graph alone. -/
theorem Runs.reset (h : ro.Runs r) {name : String} {names : List String}
    (hname : name ≠ "follow_graph") (hreset : r.reset name = some (r', names)) :
    Registry.Carried r r' := by
  unfold Registry.reset at hreset
  split at hreset
  case isFalse => cases hreset
  case isTrue =>
    rw [Option.some.injEq, Prod.mk.injEq] at hreset
    rw [← hreset.1]
    apply Registry.carried_resetWhere
    intro e ha
    have hfollow : e.name = "follow_graph" := by
      rw [Entry.name, ha]
      rfl
    rw [hfollow]
    exact decide_eq_false (h.doomed hname)

/-- Any reset leaves the analyses what they are. -/
theorem Runs.resetWhere (h : ro.Runs r) (p : Entry (FollowGraph ⊕ τ) (GraphStore × ζ) → Bool) :
    ro.Runs (r.resetWhere p) := by
  rw [Runs, ← h, Registry.resetWhere, List.map_map]
  apply List.map_congr_left
  intro e _
  rw [Function.comp]
  split <;> rfl

end Roster

end NostrSearch.Stats
