import NostrSearch.Indexer.PassPlan
import NostrSearch.Indexer.Replay
import NostrSearch.Stats.Restoring

/-!
# The invariant of a resumable rebuild

`Kept` holds of a node whatever happens to it between ingests and during them, if the ingests
have one pass each (`OnePass`) and start on analyses that hold whole files (`ReadyToResume`). While
an ingest is in its pass (`Reading`), what an analysis still to be derived was handed and what
the pass has still to hand over are the archive; otherwise it was handed no more than the archive
has. The state directory has the same of what it saved.
-/

namespace NostrSearch.Indexer

open NostrSearch.Core NostrSearch.Lib NostrSearch.Stats

namespace Node

variable {σ ε : Type} {site : Site σ ε} {n n' : Node σ ε}

/-- The plan of an ingest has one pass. -/
def OnePass (n : Node σ ε) : ReplayAct → Prop
  | .start opts => (∃ stages, n.pipe.registry.stages = .ok stages) ∧
      (n.planned opts).stages.length = 1
  | _ => True

/-- An ingest starts with analyses that hold the files they are done with and no part of any
other, and reads nothing of those files for them. -/
def ReadyToResume (site : Site σ ε) (n : Node σ ε) : ReplayAct → Prop
  | .start opts => ∀ e ∈ n.pipe.registry.entries, e.needsBackfill = true →
      e.handed = e.analysis.wanted
        (eventsOf (site.archive.filter fun f => f.key ∈ e.progress.rebuild.completed)) ∧
      ∀ f ∈ (n.started opts).toRead site, f.key ∈ e.progress.rebuild.completed →
        e.analysis.wanted (Multiset.ofList f.events) = 0
  | _ => True

/-! ## The invariant -/

/-- Whether an ingest is in its passes. -/
def Reading (n : Node σ ε) : Prop :=
  match n.phase with
  | .idle | .finalizing => False
  | _ => True

/-- The files the pass has still to finish. -/
def ahead (site : Site σ ε) (n : Node σ ε) : List ArchiveFile :=
  match n.phase with
  | .passStart => n.toRead site
  | .reading gs _ => gs.flatten
  | .group files _ gs _ => files ++ gs.flatten
  | _ => []

/-- The events the pass has still to hand over. -/
def outstanding (site : Site σ ε) (n : Node σ ε) : Multiset NostrEvent :=
  match n.phase with
  | .passStart => eventsOf (n.toRead site)
  | .reading gs _ => eventsOf gs.flatten
  | .group _ left gs _ => left + eventsOf gs.flatten
  | _ => 0

/-- An analysis that the pass is deriving, with what the pass has still to do. -/
structure Rebuilding (site : Site σ ε) (outstanding : Multiset NostrEvent)
    (ahead : List ArchiveFile) (e : Entry σ ε) : Prop where
  conserved : e.handed + e.analysis.wanted outstanding = e.analysis.wanted (eventsOf site.archive)
  unread : ∀ f ∈ ahead, f.key ∈ e.progress.rebuild.completed →
    e.analysis.wanted (Multiset.ofList f.events) = 0

/-- The only pass of an ingest. -/
structure Ingesting (site : Site σ ε) (n : Node σ ε) : Prop where
  pass : n.pipe.pass = 0
  length : n.pipe.stages.length = 1
  nodup : n.pipe.stage.Nodup
  covers : ∀ i, i < n.pipe.registry.entries.length → i ∈ n.pipe.stage
  keys : ((n.ahead site).map ArchiveFile.key).Nodup
  entries : ∀ e ∈ n.pipe.registry.entries, e.needsBackfill = true →
    Rebuilding site (n.outstanding site) (n.ahead site) e

structure Kept (site : Site σ ε) (n : Node σ ε) : Prop where
  analyses : n.pipe.registry.entries.map Entry.analysis = site.analyses
  bounded : ∀ e ∈ n.pipe.registry.entries, e.Bounded (eventsOf site.archive)
  saved : ∀ store, n.pipe.store = some store → ∀ a ∈ site.analyses, ∀ sv,
    store a.name = some sv → sv.Bounded (eventsOf site.archive) a
  ingesting : n.Reading → Ingesting site n

theorem Kept.names (h : Kept site n) :
    n.pipe.registry.names = site.analyses.map DynAnalysis.name := by
  rw [← h.analyses, List.map_map]
  rfl

/-- The invariant after a step that leaves the analyses in their places, and the store as it was
or with what they are now. -/
theorem Kept.next (h : Kept site n) (hnames : (site.analyses.map DynAnalysis.name).Nodup)
    (hanalyses : n'.pipe.registry.entries.map Entry.analysis =
      n.pipe.registry.entries.map Entry.analysis)
    (hbounded : ∀ e ∈ n'.pipe.registry.entries, e.Bounded (eventsOf site.archive))
    (hstore : n'.pipe.store = n.pipe.store ∨
      n'.pipe.store = n.pipe.store.map n'.pipe.registry.persist)
    (hingesting : n'.Reading → Ingesting site n') : Kept site n' := by
  have hsame : n'.pipe.registry.entries.map Entry.analysis = site.analyses :=
    hanalyses.trans h.analyses
  refine ⟨hsame, hbounded, ?_, hingesting⟩
  rcases hstore with hstore | hstore
  · rw [hstore]
    exact h.saved
  -- what the store has of an analysis is what its entry is now
  · intro store hs a ha sv hsv
    rw [hstore] at hs
    obtain ⟨old, -, rfl⟩ := Option.map_eq_some_iff.mp hs
    rw [← hsame] at ha
    obtain ⟨e, he, rfl⟩ := List.mem_map.mp ha
    have hnodup : n'.pipe.registry.names.Nodup := by
      have hnames' : n'.pipe.registry.names = site.analyses.map DynAnalysis.name := by
        rw [← hsame, List.map_map]
        rfl
      rw [hnames']
      exact hnames
    have hget := n'.pipe.registry.persist_get hnodup old he
    rw [Entry.name] at hget
    rw [hget, Option.some.injEq] at hsv
    rw [← hsv]
    exact (hbounded e he).saved

theorem map_analysis_of_pointwise {r r' : Registry σ ε}
    (h : Registry.Pointwise (fun _ e e' => e'.analysis = e.analysis) r r') :
    r'.entries.map Entry.analysis = r.entries.map Entry.analysis := by
  apply List.ext_getElem?
  intro i
  rw [List.getElem?_map, List.getElem?_map]
  cases he : r.entries[i]? with
  | none =>
    have he' : r'.entries[i]? = none := by
      rw [List.getElem?_eq_none_iff, h.1, ← List.getElem?_eq_none_iff, he]
    rw [he']
  | some e =>
    obtain ⟨e', he', heq⟩ := h.forth he
    rw [he', Option.map_some, Option.map_some, heq]

/-- The invariant after a step that hands nothing over and moves no rebuild. -/
theorem Kept.still (h : Kept site n) (hnames : (site.analyses.map DynAnalysis.name).Nodup)
    (hstill : Registry.Still n.pipe.registry n'.pipe.registry)
    (hstore : n'.pipe.store = n.pipe.store ∨
      n'.pipe.store = n.pipe.store.map n'.pipe.registry.persist)
    (hingesting : n'.Reading → Ingesting site n') : Kept site n' := by
  refine h.next hnames ?_ ?_ hstore hingesting
  · exact map_analysis_of_pointwise (hstill.mono fun _ e e' hm => hm.analysis)
  · intro e' he'
    obtain ⟨i, e, he, -, hm⟩ := hstill.exists_of_mem he'
    have hb := h.bounded e (List.mem_of_getElem? he)
    exact hm.bounded hb (by rw [add_zero]; exact hb.le)

/-- A pass goes on, with the files it has still to read and what it owes the rebuilds. -/
theorem Ingesting.next (h : Ingesting site n)
    (hlength : n'.pipe.registry.entries.length = n.pipe.registry.entries.length)
    (hpass : n'.pipe.pass = n.pipe.pass) (hstages : n'.pipe.stages = n.pipe.stages)
    (hkeys : ((n'.ahead site).map ArchiveFile.key).Nodup)
    (hentries : ∀ e ∈ n'.pipe.registry.entries, e.needsBackfill = true →
      Rebuilding site (n'.outstanding site) (n'.ahead site) e) : Ingesting site n' := by
  have hstage : n'.pipe.stage = n.pipe.stage := Pipeline.stage_congr hpass hstages
  refine ⟨hpass.trans h.pass, by rw [hstages, h.length], by rw [hstage]; exact h.nodup, ?_, hkeys,
    hentries⟩
  intro i hi
  rw [hstage]
  exact h.covers i (by rw [← hlength]; exact hi)

/-- A pass whose rebuilds have not moved. -/
theorem Ingesting.still (h : Ingesting site n)
    (hstill : Registry.Still n.pipe.registry n'.pipe.registry)
    (hpass : n'.pipe.pass = n.pipe.pass) (hstages : n'.pipe.stages = n.pipe.stages)
    (hahead : n'.ahead site = n.ahead site)
    (houtstanding : n'.outstanding site = n.outstanding site) : Ingesting site n' := by
  apply h.next hstill.1 hpass hstages
  · rw [hahead]
    exact h.keys
  · intro e' he' hpend
    obtain ⟨i, e, he, -, hm⟩ := hstill.exists_of_mem he'
    have hr := h.entries e (List.mem_of_getElem? he) (by rw [← hm.needsBackfill]; exact hpend)
    rw [hahead, houtstanding]
    constructor
    · rw [hm.handed, add_zero, hm.analysis]
      exact hr.conserved
    · rw [hm.rebuild, hm.analysis]
      exact hr.unread

/-! ## The steps -/

theorem planned_one {opts : ReplayOptions} (hnames : n.pipe.registry.names.Nodup)
    (hone : OnePass n (.start opts)) :
    (n.planned opts).registry = n.pipe.registry ∧ (n.planned opts).store = n.pipe.store ∧
      (n.planned opts).pass = 0 ∧ (n.planned opts).stages.length = 1 ∧
      (n.planned opts).stage.Nodup ∧
      ∀ i, i < n.pipe.registry.entries.length → i ∈ (n.planned opts).stage := by
  obtain ⟨⟨stages, hstages⟩, hlength⟩ := hone
  rw [planned] at hlength ⊢
  split at hlength
  case isTrue hindex =>
    obtain ⟨stageOf, hstaged⟩ := Registry.stages_staged hstages
    rw [if_pos hindex]
    rw [Pipeline.planFullBackfill, hstages] at hlength ⊢
    dsimp only at hlength ⊢
    have hget := hstaged.get 0 (by rw [hlength]; exact Nat.one_pos)
    -- with one stage, all are in it
    have hstage : stages.getD 0 [] =
        (List.range n.pipe.registry.entries.length).filter fun i => stageOf i = 0 := by
      rw [List.getD_eq_getElem?_getD, hget, Option.getD_some]
    refine ⟨rfl, rfl, rfl, hlength, ?_, ?_⟩
    · show (stages.getD 0 []).Nodup
      rw [hstage]
      exact List.nodup_range.filter _
    · intro i hi
      show i ∈ stages.getD 0 []
      have hlt := hstaged.lt i hi
      rw [hstage, List.mem_filter, decide_eq_true_eq]
      exact ⟨List.mem_range.mpr hi, by omega⟩
  case isFalse hindex =>
    have hplan := Pipeline.planned_passOf hstages hnames
    rw [if_neg hindex]
    have hsame : n.pipe.planReplay.1.registry = n.pipe.registry ∧
        n.pipe.planReplay.1.store = n.pipe.store ∧ n.pipe.planReplay.1.pass = 0 := by
      rw [Pipeline.planReplay, hstages]
      exact ⟨rfl, rfl, rfl⟩
    refine ⟨hsame.1, hsame.2.1, hsame.2.2, hlength, ?_, ?_⟩
    · rw [Pipeline.stage, hsame.2.2]
      exact hplan.nodup 0
    · intro i hi
      rw [Pipeline.stage, hsame.2.2]
      obtain ⟨k, hk, hin⟩ := hplan.covers i hi
      -- there is one pass
      have hk0 : k = 0 := by omega
      rw [hk0] at hin
      exact hin

/-- The files a pass does not read, its analyses are done with. -/
theorem completed_of_fileDone {p : Pipeline σ ε} {i : ℕ} {e : Entry σ ε} {file : String}
    (he : p.registry.entries[i]? = some e) (hpend : e.needsBackfill = true) (hi : i ∈ p.stage)
    (hdone : p.passFileDone file = true) : file ∈ e.progress.rebuild.completed := by
  rw [Pipeline.passFileDone, Registry.fileDoneFor] at hdone
  have hall := List.all_eq_true.mp hdone i hi
  rw [he, Option.all_some, hpend] at hall
  by_contra hnot
  rw [Rebuild.needs_iff.mpr hnot] at hall
  cases hall

theorem Kept.start (h : Kept site n) (hnames : (site.analyses.map DynAnalysis.name).Nodup)
    (hkeys : (site.archive.map ArchiveFile.key).Nodup) {opts : ReplayOptions}
    (hone : OnePass n (.start opts)) (hready : ReadyToResume site n (.start opts))
    (hstep : step site n (.start opts) = some n') : Kept site n' := by
  obtain ⟨-, rfl⟩ := step_start hstep
  obtain ⟨hregistry, hstore, hpass, hlength, hnodup, hcovers⟩ :=
    planned_one (by rw [h.names]; exact hnames) hone
  have hreg : (n.started opts).pipe.registry = n.pipe.registry := hregistry
  refine h.next hnames (by rw [hreg]) (by rw [hreg]; exact h.bounded) (Or.inl hstore) ?_
  intro _
  refine ⟨hpass, hlength, hnodup, ?_, ?_, ?_⟩
  · rw [hreg]
    exact hcovers
  · show (((n.started opts).toRead site).map ArchiveFile.key).Nodup
    rw [toRead_eq_filter]
    exact hkeys.sublist (List.filter_sublist.map _)
  · rw [hreg]
    intro e he hpend
    obtain ⟨hhanded, hunread⟩ := hready e he hpend
    refine ⟨?_, hunread⟩
    obtain ⟨i, hi⟩ := List.mem_iff_getElem?.mp he
    have hstage : i ∈ (n.started opts).pipe.stage :=
      hcovers i (List.getElem?_eq_some_iff.mp hi).1
    -- what is read, as far as the analysis wants it, is what it is not done with
    have hread : e.analysis.wanted (eventsOf ((n.started opts).toRead site)) =
        e.analysis.wanted (eventsOf (site.archive.filter fun f =>
          !decide (f.key ∈ e.progress.rebuild.completed))) := by
      rw [toRead_eq_filter]
      apply wanted_eventsOf_filter
      intro f hf hne
      by_cases hdone : f.key ∈ e.progress.rebuild.completed
      · refine hunread f ?_ hdone
        rw [toRead_eq_filter]
        refine List.mem_filter.mpr ⟨hf, ?_⟩
        rw [decide_eq_true hdone, Bool.not_true, Bool.ne_false_iff] at hne
        exact hne
      · rw [decide_eq_false hdone, Bool.not_false, ne_eq, Bool.not_eq_true, Bool.or_eq_false_iff,
          Bool.not_eq_false'] at hne
        exact absurd (completed_of_fileDone (by rw [hreg]; exact hi) hpend hstage hne.2) hdone
    show e.handed + e.analysis.wanted (eventsOf ((n.started opts).toRead site)) = _
    rw [hhanded, hread, ← DynAnalysis.wanted_add, eventsOf_filter_add]

/-- The invariant, when only the phase has changed. -/
theorem Kept.of_phase (h : Kept site n) (hnames : (site.analyses.map DynAnalysis.name).Nodup)
    (phase : Phase) (cancel : Bool)
    (hread : ({ n with phase := phase, cancel := cancel } : Node σ ε).Reading → n.Reading ∧
      ({ n with phase := phase, cancel := cancel } : Node σ ε).ahead site = n.ahead site ∧
      ({ n with phase := phase, cancel := cancel } : Node σ ε).outstanding site =
        n.outstanding site) :
    Kept site { n with phase := phase, cancel := cancel } := by
  refine h.still hnames (Registry.still_refl _) (Or.inl rfl) ?_
  intro hreading
  obtain ⟨hwas, hahead, houtstanding⟩ := hread hreading
  exact (h.ingesting hwas).still (Registry.still_refl _) rfl rfl hahead houtstanding

theorem Kept.pass (h : Kept site n) (hnames : (site.analyses.map DynAnalysis.name).Nodup)
    (hstep : step site n .pass = some n') : Kept site n' := by
  obtain ⟨hphase, hcases⟩ := step_pass hstep
  have hreading : n.Reading := by
    rw [Reading, hphase]
    trivial
  have hahead : n.ahead site = n.toRead site := by rw [ahead, hphase]
  have houtstanding : n.outstanding site = eventsOf (n.toRead site) := by rw [outstanding, hphase]
  have hi := h.ingesting hreading
  rcases hcases with ⟨-, rfl⟩ | ⟨-, hskip, rfl⟩ | ⟨-, -, rfl⟩
  · exact h.of_phase hnames .finalizing n.cancel fun hr => absurd hr id
  · -- no analysis still to be derived reads events
    refine h.still hnames (Registry.still_refl _) (Or.inl rfl) ?_
    intro _
    refine ⟨hi.pass, hi.length, hi.nodup, hi.covers, List.nodup_nil, ?_⟩
    intro e he hpend
    have hr := hi.entries e he hpend
    obtain ⟨i, hget⟩ := List.mem_iff_getElem?.mp he
    have hstage : i ∈ n.pipe.stage := hi.covers i (List.getElem?_eq_some_iff.mp hget).1
    have hindexes : n.pipe.indexesThisPass = true := by
      rw [Pipeline.indexesThisPass, hi.pass, decide_eq_true rfl, Bool.or_true]
    have hkinds : e.analysis.kinds = some [] := kinds_nil_of_skips hskip hindexes hstage hget hpend
    refine ⟨?_, fun f hf => absurd hf List.not_mem_nil⟩
    have hconserved := hr.conserved
    rw [DynAnalysis.wanted_of_kinds_nil hkinds] at hconserved ⊢
    exact hconserved
  · refine h.of_phase hnames (.reading (n.groups site) 0) n.cancel fun _ => ⟨hreading, ?_, ?_⟩
    · rw [hahead]
      exact flatten_groups site n
    · rw [houtstanding]
      exact congrArg eventsOf (flatten_groups site n)

theorem Kept.nextGroup (h : Kept site n) (hnames : (site.analyses.map DynAnalysis.name).Nodup)
    (hstep : step site n .nextGroup = some n') : Kept site n' := by
  obtain ⟨groups, filesDone, hphase, hcases⟩ := step_nextGroup hstep
  have hreading : n.Reading := by
    rw [Reading, hphase]
    trivial
  have hahead : n.ahead site = groups.flatten := by rw [ahead, hphase]
  have houtstanding : n.outstanding site = eventsOf groups.flatten := by rw [outstanding, hphase]
  rcases hcases with ⟨rfl, -⟩ | ⟨-, rfl, rfl⟩ | ⟨-, g, gs, rfl, rfl⟩
  · exact h.of_phase hnames .finalizing true fun hr => absurd hr id
  · refine h.of_phase hnames .advancing n.cancel fun _ => ⟨hreading, ?_, ?_⟩
    · rw [hahead]
      rfl
    · rw [houtstanding]
      rfl
  · refine h.of_phase hnames (.group g (eventsOf g) gs filesDone) n.cancel fun _ =>
      ⟨hreading, ?_, ?_⟩
    · rw [hahead]
      rfl
    · rw [houtstanding, List.flatten_cons, eventsOf_append]
      rfl

/-- An event goes to every analysis that is still to be derived and wants it. -/
theorem Kept.fold (h : Kept site n) (hnames : (site.analyses.map DynAnalysis.name).Nodup)
    {ev : NostrEvent} {clk : Clock} (hstep : step site n (.fold ev clk) = some n') :
    Kept site n' := by
  obtain ⟨files, left, gs, filesDone, hphase, -, hev, rfl⟩ := step_fold hstep
  have hreading : n.Reading := by
    rw [Reading, hphase]
    trivial
  have hahead : n.ahead site = files ++ gs.flatten := by rw [ahead, hphase]
  have houtstanding : n.outstanding site = left + eventsOf gs.flatten := by rw [outstanding, hphase]
  have hi := h.ingesting hreading
  obtain ⟨hentries, -, hstages, hpass, hstore⟩ := n.pipe.foldOnly_spec ev clk hi.nodup
  -- the only pass has every analysis
  have hrouted : ∀ i e, n.pipe.registry.entries[i]? = some e → i ∈ n.pipe.routed := by
    intro i e he
    have hlt : i < n.pipe.registry.entries.length := (List.getElem?_eq_some_iff.mp he).1
    unfold Pipeline.routed
    split
    · exact List.mem_range.mpr hlt
    · exact hi.covers i hlt
  -- what a pending analysis is handed, and what is left for it
  have hpending : ∀ (i : ℕ) (e e' : Entry σ ε), n.pipe.registry.entries[i]? = some e →
      (n.pipe.foldOnly ev clk).registry.entries[i]? = some e' → e.needsBackfill = true →
      e'.handed = e.handed + (if e.analysis.folds ev = true then {ev} else 0 : Multiset NostrEvent) := by
    intro i e e' he he' hpend
    have hm := hentries.2 i e e' he he'
    rw [hm.handed, Entry.takes_of_needsBackfill hpend]
    simp only [hrouted i e he, true_and]
  have hconserved : ∀ (i : ℕ) (e e' : Entry σ ε), n.pipe.registry.entries[i]? = some e →
      (n.pipe.foldOnly ev clk).registry.entries[i]? = some e' → e.needsBackfill = true →
      e'.handed + e.analysis.wanted (left.erase ev + eventsOf gs.flatten) =
        e.analysis.wanted (eventsOf site.archive) := by
    intro i e e' he he' hpend
    have hr := (hi.entries e (List.mem_of_getElem? he) hpend).conserved
    have herase := e.analysis.wanted_erase hev
    rw [houtstanding, DynAnalysis.wanted_add, ← herase] at hr
    rw [hpending i e e' he he' hpend, DynAnalysis.wanted_add, ← hr]
    abel
  refine h.next hnames ?_ ?_ hstore ?_
  · exact map_analysis_of_pointwise (hentries.mono fun _ e e' hm => hm.analysis)
  · intro e' he'
    obtain ⟨i, e, he, hget, hm⟩ := hentries.exists_of_mem he'
    refine ⟨hm.derived (h.bounded e (List.mem_of_getElem? he)).derived, ?_⟩
    intro hpend
    rw [hm.needsBackfill] at hpend
    rw [hm.analysis, ← hconserved i e e' he hget hpend]
    exact Multiset.le_add_right _ _
  · intro _
    apply hi.next hentries.1 hpass hstages
    · have hkeys := hi.keys
      rw [hahead] at hkeys
      exact hkeys
    · intro e' he' hpend
      obtain ⟨i, e, he, hget, hm⟩ := hentries.exists_of_mem he'
      rw [hm.needsBackfill] at hpend
      have hr := hi.entries e (List.mem_of_getElem? he) hpend
      rw [hahead] at hr
      constructor
      · rw [hm.analysis]
        exact hconserved i e e' he hget hpend
      · rw [hm.rebuild, hm.analysis]
        exact hr.unread

theorem Kept.endGroup (h : Kept site n) (hnames : (site.analyses.map DynAnalysis.name).Nodup)
    {clk : Clock} (hstep : step site n (.endGroup clk) = some n') : Kept site n' := by
  obtain ⟨files, left, gs, filesDone, hphase, hcases⟩ := step_endGroup hstep
  have hreading : n.Reading := by
    rw [Reading, hphase]
    trivial
  have hahead : n.ahead site = files ++ gs.flatten := by rw [ahead, hphase]
  have houtstanding : n.outstanding site = left + eventsOf gs.flatten := by rw [outstanding, hphase]
  have hi := h.ingesting hreading
  have hkeys := hi.keys
  rw [hahead, List.map_append, List.nodup_append] at hkeys
  obtain ⟨-, hrest, hdisj⟩ := hkeys
  rcases hcases with ⟨-, rfl⟩ | ⟨-, hleft, -, rfl⟩ | ⟨-, hleft, -, rfl⟩
  · exact h.of_phase hnames .finalizing n.cancel fun hr => absurd hr id
  · -- an indexing pass records nothing
    refine h.still hnames (Registry.still_refl _) (Or.inl rfl) ?_
    intro _
    refine ⟨hi.pass, hi.length, hi.nodup, hi.covers, hrest, ?_⟩
    intro e he hpend
    have hr := hi.entries e he hpend
    rw [hahead, houtstanding, hleft, zero_add] at hr
    exact ⟨hr.conserved, fun f hf => hr.unread f (List.mem_append_right _ hf)⟩
  · obtain ⟨hentries, -, hstages, hpass, hstore⟩ :=
      n.pipe.finishPassFiles_spec (files.map ArchiveFile.key) clk
    refine h.next hnames ?_ ?_ (Or.inr hstore) ?_
    · exact map_analysis_of_pointwise (hentries.mono fun _ e e' hm => hm.analysis)
    · intro e' he'
      obtain ⟨i, e, he, -, hm⟩ := hentries.exists_of_mem he'
      have hb := h.bounded e (List.mem_of_getElem? he)
      refine ⟨hm.derived hb.derived, ?_⟩
      rw [hm.needsBackfill, hm.handed, hm.analysis]
      exact hb.le
    · intro _
      refine hi.next hentries.1 hpass hstages hrest ?_
      intro e' he' hpend
      obtain ⟨i, e, he, -, hm⟩ := hentries.exists_of_mem he'
      rw [hm.needsBackfill] at hpend
      have hr := hi.entries e (List.mem_of_getElem? he) hpend
      rw [hahead, houtstanding, hleft, zero_add] at hr
      constructor
      · rw [hm.handed, hm.analysis]
        exact hr.conserved
      · -- the files still to come are not the ones recorded now
        intro f hf hdone
        rw [hm.analysis]
        rcases (hm.completed f.key).mp hdone with hbefore | ⟨-, -, hnow⟩
        · exact hr.unread f (List.mem_append_right _ hf) hbefore
        · exact absurd rfl (hdisj f.key hnow f.key (List.mem_map.mpr ⟨f, hf, rfl⟩))

/-- After the only pass no analysis is left to be derived. -/
theorem Kept.advance (h : Kept site n) (hnames : (site.analyses.map DynAnalysis.name).Nodup)
    {clk : Clock} (hstep : step site n (.advance clk) = some n') : Kept site n' := by
  obtain ⟨hphase, rfl⟩ := step_advance hstep
  have hreading : n.Reading := by
    rw [Reading, hphase]
    trivial
  have hi := h.ingesting hreading
  obtain ⟨hentries, -, -, hstore, hflag, -⟩ := n.pipe.advancePass_spec clk
  -- the plan has one pass
  have hlast : n.pipe.needsAnotherPass = false := by
    rw [Pipeline.needsAnotherPass, hi.pass, hi.length]
    rfl
  refine h.next hnames ?_ ?_ (Or.inl hstore) ?_
  · exact map_analysis_of_pointwise (hentries.mono fun _ e e' hm => hm.analysis)
  · intro e' he'
    obtain ⟨i, e, he, -, hm⟩ := hentries.exists_of_mem he'
    have hb := h.bounded e (List.mem_of_getElem? he)
    refine ⟨hm.derived hb.derived, ?_⟩
    intro hpend
    have hdone := hm.done (hi.covers i (List.getElem?_eq_some_iff.mp he).1)
    rw [hdone] at hpend
    cases hpend
  · intro hr
    rw [Reading] at hr
    simp only [hflag, hlast, Bool.false_eq_true, if_false] at hr

theorem Kept.finalize (h : Kept site n) (hnames : (site.analyses.map DynAnalysis.name).Nodup)
    {clk : Clock} (hstep : step site n (.finalize clk) = some n') : Kept site n' := by
  obtain ⟨-, rfl⟩ := step_finalize hstep
  have hquiet : Pipeline.Quiet n.pipe (n.pipe.refreshInner true clk) :=
    n.pipe.refreshInner_quiet true clk
  exact h.still hnames hquiet.still hquiet.store fun hr => absurd hr id

theorem toRead_of_quiet (site : Site σ ε) {p : Pipeline σ ε} (hquiet : Pipeline.Quiet n.pipe p) :
    ({ n with pipe := p } : Node σ ε).toRead site = n.toRead site := by
  have hstage : p.stage = n.pipe.stage := Pipeline.stage_congr hquiet.pass hquiet.stages
  rw [toRead_eq_filter, toRead_eq_filter]
  apply List.filter_congr
  intro f _
  rw [indexingPass, indexingPass, hquiet.pass, Pipeline.passFileDone, Pipeline.passFileDone, hstage,
    hquiet.still.fileDoneFor]

/-- A flush of the stats, wherever the ingest is. -/
theorem Kept.finish (h : Kept site n) (hnames : (site.analyses.map DynAnalysis.name).Nodup)
    (clk : Clock) : Kept site { n with pipe := n.pipe.finish clk } := by
  have hquiet : Pipeline.Quiet n.pipe (n.pipe.finish clk) := n.pipe.refreshInner_quiet true clk
  have hread := toRead_of_quiet site hquiet
  refine h.still hnames hquiet.still hquiet.store ?_
  intro hreading
  refine (h.ingesting hreading).still hquiet.still hquiet.pass hquiet.stages ?_ ?_
  · rw [ahead, ahead, hread]
  · rw [outstanding, outstanding, hread]

/-- A process comes up on what is in its state directory. -/
theorem kept_boot {ext : ε} {store : Option (StatStore σ)} {clk : Clock}
    (hstore : ∀ st, store = some st → ∀ a ∈ site.analyses, ∀ sv, st a.name = some sv →
      sv.Bounded (eventsOf site.archive) a)
    (hnames : (site.analyses.map DynAnalysis.name).Nodup)
    (hboot : boot site ext store clk = some n) : Kept site n := by
  rw [boot] at hboot
  split at hboot
  case h_1 => cases hboot
  case h_2 p hp =>
    rw [Option.some.injEq] at hboot
    subst hboot
    obtain ⟨me, hregistry, hmestore, hquiet⟩ := Pipeline.new_quiet hp
    -- what the process has before its first refresh
    have hbounded : me.registry.entries.map Entry.analysis = site.analyses ∧
        ∀ e ∈ me.registry.entries, e.Bounded (eventsOf site.archive) := by
      rw [hregistry]
      cases store with
      | none =>
        constructor
        · show (site.analyses.map Entry.new).map Entry.analysis = _
          rw [List.map_map]
          exact List.map_id _
        · intro e he
          obtain ⟨a, -, rfl⟩ := List.mem_map.mp he
          exact Entry.bounded_new a
      | some st => exact Registry.bounded_load (hstore st rfl)
    have hme : Kept site
        { pipe := me, phase := .idle, cancel := false
          opts := { parallelism := 1, index := false, stopAfterFiles := none } } := by
      refine ⟨hbounded.1, hbounded.2, ?_, fun hr => absurd hr id⟩
      intro st hst
      exact hstore st (hmestore ▸ hst)
    exact hme.still hnames hquiet.still hquiet.store fun hr => absurd hr id

theorem Kept.restart (h : Kept site n) (hnames : (site.analyses.map DynAnalysis.name).Nodup)
    {clk : Clock} (hstep : step site n (.restart clk) = some n') : Kept site n' :=
  kept_boot h.saved hnames hstep

theorem reattachGraph_spec {p : Pipeline σ ε} {all : Multiset NostrEvent}
    (h : ∀ e ∈ p.registry.entries, e.Bounded all) :
    p.reattachGraph.registry.entries.map Entry.analysis =
        p.registry.entries.map Entry.analysis ∧
      (∀ e ∈ p.reattachGraph.registry.entries, e.Bounded all) ∧
      p.reattachGraph.store = p.store := by
  unfold Pipeline.reattachGraph
  split
  · obtain ⟨hanalyses, hbounded⟩ := Registry.bounded_attachAll h
    exact ⟨hanalyses, hbounded, rfl⟩
  · exact ⟨rfl, h, rfl⟩

/-- Analyses are reset only while no ingest runs. -/
theorem Kept.reset (h : Kept site n) (hnames : (site.analyses.map DynAnalysis.name).Nodup)
    {name : String} (hstep : step site n (.reset name) = some n') : Kept site n' := by
  simp only [step] at hstep
  split at hstep
  case h_2 => cases hstep
  case h_1 hphase =>
    obtain ⟨r, hr, rfl⟩ := Option.map_eq_some_iff.mp hstep
    rw [Pipeline.resetAnalysis] at hr
    obtain ⟨r', hr', rfl⟩ := Option.map_eq_some_iff.mp hr
    rw [Registry.reset] at hr'
    split at hr'
    case isFalse => cases hr'
    case isTrue =>
      rw [Option.some.injEq] at hr'
      subst hr'
      obtain ⟨hanalyses, hbounded⟩ := Registry.bounded_resetWhere
        (fun e => decide (e.name ∈ n.pipe.registry.doomed name)) h.bounded
      obtain ⟨hanalyses', hbounded', hstore⟩ := reattachGraph_spec (p := { n.pipe with
        registry := n.pipe.registry.resetWhere fun e =>
          decide (e.name ∈ n.pipe.registry.doomed name) }) hbounded
      refine h.next hnames (hanalyses'.trans hanalyses) hbounded' (Or.inr ?_) ?_
      · show Option.map _ _ = _
        rw [hstore]
        rfl
      · intro hr
        rw [Reading, hphase] at hr
        exact absurd hr id

theorem Kept.resetAll (h : Kept site n) (hnames : (site.analyses.map DynAnalysis.name).Nodup)
    (hstep : step site n .resetAll = some n') : Kept site n' := by
  simp only [step] at hstep
  split at hstep
  case h_2 => cases hstep
  case h_1 hphase =>
    rw [Option.some.injEq] at hstep
    subst hstep
    obtain ⟨hanalyses, hbounded⟩ := Registry.bounded_resetWhere (fun _ => true) h.bounded
    obtain ⟨hanalyses', hbounded', hstore⟩ := reattachGraph_spec (p := { n.pipe with
      registry := n.pipe.registry.resetAll.1 }) hbounded
    refine h.next hnames (hanalyses'.trans hanalyses) hbounded' (Or.inr ?_) ?_
    · show Option.map _ _ = _
      rw [hstore]
      rfl
    · intro hr
      rw [Reading, hphase] at hr
      exact absurd hr id

theorem Kept.step (h : Kept site n) (hnames : (site.analyses.map DynAnalysis.name).Nodup)
    (hkeys : (site.archive.map ArchiveFile.key).Nodup) {a : ReplayAct} (hone : OnePass n a)
    (hready : ReadyToResume site n a) (hstep : Node.step site n a = some n') : Kept site n' := by
  cases a with
  | start opts => exact h.start hnames hkeys hone hready hstep
  | pass => exact h.pass hnames hstep
  | nextGroup => exact h.nextGroup hnames hstep
  | fold ev clk => exact h.fold hnames hstep
  | endGroup clk => exact h.endGroup hnames hstep
  | advance clk => exact h.advance hnames hstep
  | finalize clk => exact h.finalize hnames hstep
  | cancel =>
    cases hstep
    exact h.of_phase hnames n.phase true fun hr => ⟨hr, rfl, rfl⟩
  | finish clk =>
    cases hstep
    exact h.finish hnames clk
  | restart clk => exact h.restart hnames hstep
  | reset name => exact h.reset hnames hstep
  | resetAll => exact h.resetAll hnames hstep

end Node

end NostrSearch.Indexer
