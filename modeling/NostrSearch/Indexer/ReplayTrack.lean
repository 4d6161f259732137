import NostrSearch.Indexer.PassPlan
import NostrSearch.Indexer.Replay

/-!
# Keeping track of a replay

The invariant of an uninterrupted stats-only ingest of a live node: `Track` relates each analysis
to what it was when the ingest started. `of` is its pass. Before its pass an analysis that was to
be derived was handed nothing; during it, what it was handed and what the pass has still to hand
over are the archive; after it, it is derived, and the parameter `R` compares what it should have
been handed with what it was.
-/

namespace NostrSearch.Indexer

open NostrSearch.Core NostrSearch.Lib NostrSearch.Stats

/-- A step of an ingest that nothing interrupts. -/
def ReplayAct.Uninterrupted : ReplayAct → Prop
  | .pass | .nextGroup | .fold _ _ | .endGroup _ | .advance _ | .finalize _ => True
  | .start _ | .cancel | .finish _ | .restart _ | .reset _ | .resetAll => False

namespace Node

variable {σ ε : Type} {site : Site σ ε} {n₀ n n' : Node σ ε}

/-- A pass leaves out no file that one of its analyses wants something of. -/
def WholeFiles (site : Site σ ε) (n : Node σ ε) : ReplayAct → Prop
  | .pass => ∀ (i : ℕ) (e : Entry σ ε), n.pipe.registry.entries[i]? = some e →
      e.needsBackfill = true → i ∈ n.pipe.stage → ∀ f ∈ site.archive,
        n.pipe.passFileDone f.key = true → e.analysis.wanted (Multiset.ofList f.events) = 0
  | _ => True

/-- An analysis still to be derived that wants the event is in the pass that reads it. -/
def InStage (n : Node σ ε) : ReplayAct → Prop
  | .fold ev _ => ∀ (i : ℕ) (e : Entry σ ε), n.pipe.registry.entries[i]? = some e →
      e.needsBackfill = true → e.analysis.folds ev = true → i ∈ n.pipe.stage
  | _ => True

/-! ## Keeping track -/

/-- The events the pass has still to hand over. -/
def due (n : Node σ ε) : Multiset NostrEvent :=
  match n.phase with
  | .reading gs _ => eventsOf gs.flatten
  | .group _ left gs _ => left + eventsOf gs.flatten
  | _ => 0

/-- How many passes are behind the node. -/
def passed (n : Node σ ε) : ℕ :=
  match n.phase with
  | .idle | .finalizing => n.pipe.stages.length
  | _ => n.pipe.pass

/-- Where an entry is in the replay. `R` compares what an analysis should have been handed with
what it was, once its pass is over. -/
structure Tracked (R : Multiset NostrEvent → Multiset NostrEvent → Prop) (site : Site σ ε)
    (of : ℕ → ℕ) (n : Node σ ε) (i : ℕ) (e₀ e : Entry σ ε) : Prop where
  analysis : e.analysis = e₀.analysis
  pending : e.needsBackfill = (e₀.needsBackfill && decide (n.passed ≤ of i))
  later : e₀.needsBackfill = true → n.passed < of i → e.handed = e₀.handed
  start : e₀.needsBackfill = true → n.passed = of i → n.phase = .passStart → e.handed = e₀.handed
  current : e₀.needsBackfill = true → n.passed = of i → n.phase ≠ .passStart →
    e.handed + e₀.analysis.wanted n.due = e₀.handed + e₀.analysis.wanted (eventsOf site.archive)
  past : e₀.needsBackfill = true → of i < n.passed →
    R (e₀.handed + e₀.analysis.wanted (eventsOf site.archive)) e.handed

/-- The invariant of an uninterrupted replay. -/
structure Track (R : Multiset NostrEvent → Multiset NostrEvent → Prop) (site : Site σ ε)
    (n₀ : Node σ ε) (opts : ReplayOptions) (plan : List (List ℕ)) (of : ℕ → ℕ) (n : Node σ ε) :
    Prop where
  live : n.pipe.live = true
  opts : n.opts = opts
  cancel : n.cancel = false
  stages : n.pipe.stages = plan
  due_mem : ∀ ev ∈ n.due, ev ∈ eventsOf site.archive
  pass_lt : n.pipe.pass < plan.length
  entries : Registry.Pointwise (Tracked R site of n) n₀.pipe.registry n.pipe.registry

variable {R : Multiset NostrEvent → Multiset NostrEvent → Prop} {opts : ReplayOptions}
  {plan : List (List ℕ)} {of : ℕ → ℕ}

theorem pending_of_getElem {r : Registry σ ε} {i : ℕ} {e : Entry σ ε}
    (he : r.entries[i]? = some e) : r.pending i = e.needsBackfill := by
  rw [Registry.pending, he, Option.any_some]

/-- Of the analyses that were to be derived, the stage has those of its pass. -/
theorem Track.mem_stage (h : Track R site n₀ opts plan of n)
    (hplan : Pipeline.Planned n₀.pipe.registry plan of) {i : ℕ} {e₀ : Entry σ ε}
    (he₀ : n₀.pipe.registry.entries[i]? = some e₀) (hpend : e₀.needsBackfill = true) :
    i ∈ n.pipe.stage ↔ of i = n.pipe.pass := by
  rw [Pipeline.stage, h.stages]
  exact hplan.mem_iff i (by rw [pending_of_getElem he₀, hpend]) n.pipe.pass h.pass_lt

theorem Track.nodup_stage (h : Track R site n₀ opts plan of n)
    (hplan : Pipeline.Planned n₀.pipe.registry plan of) : n.pipe.stage.Nodup := by
  rw [Pipeline.stage, h.stages]
  exact hplan.nodup n.pipe.pass

/-- An entry to which nothing happens while the node goes on in its pass. -/
theorem Tracked.still {i : ℕ} {e₀ e e' : Entry σ ε} (ht : Tracked R site of n i e₀ e)
    (hpassed : n'.passed = n.passed) (hanalysis : e'.analysis = e.analysis)
    (hneeds : e'.needsBackfill = e.needsBackfill) (hhanded : e'.handed = e.handed)
    (hstart : n'.phase ≠ .passStart)
    (hcurrent : e₀.needsBackfill = true → n.passed = of i →
      e.handed + e₀.analysis.wanted n'.due =
        e₀.handed + e₀.analysis.wanted (eventsOf site.archive)) :
    Tracked R site of n' i e₀ e' := by
  refine ⟨hanalysis.trans ht.analysis, ?_, ?_, ?_, ?_, ?_⟩
  · rw [hneeds, ht.pending, hpassed]
  · rw [hpassed, hhanded]
    exact ht.later
  · exact fun _ _ hph => absurd hph hstart
  · rw [hpassed, hhanded]
    exact fun hp hof _ => hcurrent hp hof
  · rw [hpassed, hhanded]
    exact ht.past

/-- The invariant, when only the phase has changed. -/
theorem Track.of_phase (h : Track R site n₀ opts plan of n) (phase : Phase)
    (hpassed : ({ n with phase := phase } : Node σ ε).passed = n.passed)
    (hdue : ∀ ev ∈ ({ n with phase := phase } : Node σ ε).due, ev ∈ eventsOf site.archive)
    (hstart : phase ≠ .passStart)
    (hcurrent : ∀ i e₀ e, n₀.pipe.registry.entries[i]? = some e₀ →
      n.pipe.registry.entries[i]? = some e → e₀.needsBackfill = true → n.passed = of i →
      e.handed + e₀.analysis.wanted ({ n with phase := phase } : Node σ ε).due =
        e₀.handed + e₀.analysis.wanted (eventsOf site.archive)) :
    Track R site n₀ opts plan of { n with phase := phase } := by
  refine ⟨h.live, h.opts, h.cancel, h.stages, hdue, h.pass_lt, h.entries.1, ?_⟩
  intro i e₀ e he₀ he
  exact (h.entries.2 i e₀ e he₀ he).still hpassed rfl rfl rfl hstart (hcurrent i e₀ e he₀ he)

/-- What the files a pass reads have for an analysis of the pass. -/
theorem wanted_toRead (hindex : n.opts.index = false) {a : DynAnalysis σ ε}
    (hwhole : ∀ f ∈ site.archive, n.pipe.passFileDone f.key = true →
      a.wanted (Multiset.ofList f.events) = 0) :
    a.wanted (eventsOf (n.toRead site)) = a.wanted (eventsOf site.archive) := by
  have hpass : n.indexingPass = false := by rw [indexingPass, hindex, Bool.and_false]
  rw [toRead_eq_filter, hpass]
  calc a.wanted (eventsOf (site.archive.filter fun f => false || !n.pipe.passFileDone f.key))
      = a.wanted (eventsOf (site.archive.filter fun _ => true)) := by
        apply wanted_eventsOf_filter
        intro f hf hne
        apply hwhole f hf
        simpa using hne
    _ = a.wanted (eventsOf site.archive) := by rw [List.filter_true]

theorem mem_eventsOf_toRead {ev : NostrEvent} (h : ev ∈ eventsOf (n.toRead site)) :
    ev ∈ eventsOf site.archive := by
  rw [eventsOf, Multiset.mem_coe, List.mem_flatMap] at h ⊢
  obtain ⟨f, hf, hev⟩ := h
  rw [toRead_eq_filter] at hf
  exact ⟨f, (List.mem_filter.mp hf).1, hev⟩

theorem Track.pass (h : Track R site n₀ opts plan of n)
    (hplan : Pipeline.Planned n₀.pipe.registry plan of) (hindex : opts.index = false)
    (hwhole : WholeFiles site n .pass) (hstep : step site n .pass = some n') :
    Track R site n₀ opts plan of n' := by
  obtain ⟨hphase, hcases⟩ := step_pass hstep
  have hpassed : n.passed = n.pipe.pass := by rw [passed, hphase]
  rcases hcases with ⟨hcancel, -⟩ | ⟨-, hskip, rfl⟩ | ⟨-, -, rfl⟩
  -- nobody cancels the ingest
  · rw [h.cancel] at hcancel
    cases hcancel
  · -- no analysis of this pass reads events
    apply h.of_phase .advancing (by rw [hpassed]; rfl)
      (fun ev hev => absurd hev (Multiset.notMem_zero ev)) (by simp)
    intro i e₀ e he₀ he hp hof
    have ht := h.entries.2 i e₀ e he₀ he
    have hstage : i ∈ n.pipe.stage := (h.mem_stage hplan he₀ hp).mpr (by omega)
    have hpend : e.needsBackfill = true := by
      rw [ht.pending, hp, hof]
      simp
    have hindexes : n.pipe.indexesThisPass = true := by
      rw [Pipeline.indexesThisPass, h.live, Bool.true_or]
    have hkinds : e.analysis.kinds = some [] := kinds_nil_of_skips hskip hindexes hstage he hpend
    have hkinds₀ : e₀.analysis.kinds = some [] := by rw [← ht.analysis, hkinds]
    rw [DynAnalysis.wanted_of_kinds_nil hkinds₀, DynAnalysis.wanted_of_kinds_nil hkinds₀,
      ht.start hp hof hphase]
  · have hdue : ({ n with phase := .reading (n.groups site) 0 } : Node σ ε).due =
        eventsOf (n.toRead site) := by
      show eventsOf (n.groups site).flatten = _
      rw [flatten_groups]
    apply h.of_phase (.reading (n.groups site) 0) (by rw [hpassed]; rfl)
    · rw [hdue]
      exact fun ev hev => mem_eventsOf_toRead hev
    · simp
    · intro i e₀ e he₀ he hp hof
      have ht := h.entries.2 i e₀ e he₀ he
      have hstage : i ∈ n.pipe.stage := (h.mem_stage hplan he₀ hp).mpr (by omega)
      have hpend : e.needsBackfill = true := by
        rw [ht.pending, hp, hof]
        simp
      rw [hdue, wanted_toRead (by rw [h.opts, hindex]), ht.start hp hof hphase]
      intro f hf hdone
      rw [← ht.analysis]
      exact hwhole i e he hpend hstage f hf hdone

theorem Track.nextGroup (h : Track R site n₀ opts plan of n) (hstop : opts.stopAfterFiles = none)
    (hstep : step site n .nextGroup = some n') : Track R site n₀ opts plan of n' := by
  obtain ⟨groups, filesDone, hphase, hcases⟩ := step_nextGroup hstep
  have hpassed : n.passed = n.pipe.pass := by rw [passed, hphase]
  have hread : n.phase ≠ .passStart := by rw [hphase]; simp
  rcases hcases with ⟨-, hcancel | hstop'⟩ | ⟨-, rfl, rfl⟩ | ⟨-, g, gs, rfl, rfl⟩
  · rw [h.cancel] at hcancel
    cases hcancel
  · rw [h.opts] at hstop'
    exact absurd hstop hstop'
  -- no group is left
  · have hdue : n.due = 0 := by rw [due, hphase]; rfl
    apply h.of_phase .advancing (by rw [hpassed]; rfl)
      (fun ev hev => absurd hev (Multiset.notMem_zero ev)) (by simp)
    intro i e₀ e he₀ he hp hof
    have hcur := (h.entries.2 i e₀ e he₀ he).current hp hof hread
    rw [hdue] at hcur
    exact hcur
  -- the files of the group have only gone from later to now
  · have hdue : ({ n with phase := .group g (eventsOf g) gs filesDone } : Node σ ε).due = n.due := by
      rw [due, due, hphase]
      dsimp only
      rw [List.flatten_cons, eventsOf_append]
    apply h.of_phase (.group g (eventsOf g) gs filesDone) (by rw [hpassed]; rfl)
    · rw [hdue]
      exact h.due_mem
    · simp
    · intro i e₀ e he₀ he hp hof
      rw [hdue]
      exact (h.entries.2 i e₀ e he₀ he).current hp hof hread

/-- An event goes to the analyses of the pass that want it, to none of a later pass, and to a
derived one as `R` allows. -/
theorem Track.fold (h : Track R site n₀ opts plan of n)
    (hplan : Pipeline.Planned n₀.pipe.registry plan of) {ev : NostrEvent} {clk : Clock}
    (hstage : InStage n (.fold ev clk))
    (hpast : ∀ i e₀ e, n₀.pipe.registry.entries[i]? = some e₀ →
      n.pipe.registry.entries[i]? = some e → Tracked R site of n i e₀ e →
      e₀.needsBackfill = true → of i < n.passed → ev ∈ eventsOf site.archive →
      e.takes .backfill ev = true →
      R (e₀.handed + e₀.analysis.wanted (eventsOf site.archive)) (e.handed + {ev}))
    (hstep : step site n (.fold ev clk) = some n') : Track R site n₀ opts plan of n' := by
  obtain ⟨files, left, gs, filesDone, hphase, hcancel, hev, rfl⟩ := step_fold hstep
  obtain ⟨hentries, hlive, hstages, hpass, -⟩ :=
    n.pipe.foldOnly_spec ev clk (h.nodup_stage hplan)
  have hpassed : n.passed = n.pipe.pass := by rw [passed, hphase]
  have hread : n.phase ≠ .passStart := by rw [hphase]; simp
  have hdue : n.due = left + eventsOf gs.flatten := by rw [due, hphase]
  have hpassed' : ({ n with
      pipe := n.pipe.foldOnly ev clk
      phase := .group files (left.erase ev) gs filesDone } : Node σ ε).passed = n.pipe.pass := hpass
  -- what a pass hands over is in the archive
  have harchive : ev ∈ eventsOf site.archive := by
    apply h.due_mem
    rw [hdue]
    exact Multiset.mem_add.mpr (Or.inl hev)
  refine ⟨hlive.trans h.live, h.opts, hcancel, hstages.trans h.stages, ?_,
    lt_of_eq_of_lt hpass h.pass_lt, ?_⟩
  · intro ev' hev'
    apply h.due_mem
    rw [hdue]
    rcases Multiset.mem_add.mp hev' with hl | hg
    · exact Multiset.mem_add.mpr (Or.inl (Multiset.mem_of_mem_erase hl))
    · exact Multiset.mem_add.mpr (Or.inr hg)
  · refine ⟨hentries.1.trans h.entries.1, ?_⟩
    intro i e₀ e' he₀ he'
    obtain ⟨e, he, ht⟩ := h.entries.forth he₀
    have hmoved := hentries.2 i e e' he he'
    have hrouted : i ∈ n.pipe.routed := by
      rw [Pipeline.routed, h.live, if_pos rfl]
      exact List.mem_range.mpr (List.getElem?_eq_some_iff.mp he).1
    simp only [hrouted, true_and] at hmoved
    -- what a pending analysis takes
    have htakes : e₀.needsBackfill = true → n.passed ≤ of i →
        e.takes .backfill ev = e₀.analysis.folds ev := by
      intro hp hle
      have hpend : e.needsBackfill = true := by
        rw [ht.pending, hp]
        simpa using hle
      rw [Entry.takes_of_needsBackfill hpend, ht.analysis]
    refine ⟨hmoved.analysis.trans ht.analysis, ?_, ?_, ?_, ?_, ?_⟩
    · rw [hmoved.needsBackfill, ht.pending, hpassed, hpassed']
    · intro hp hlt
      rw [hpassed', ← hpassed] at hlt
      -- a later analysis that wanted the event would be in the stage
      have hnot : e.takes .backfill ev = false := by
        rw [htakes hp (by omega)]
        by_contra hfolds
        rw [Bool.not_eq_false] at hfolds
        have hpend : e.needsBackfill = true := by
          rw [ht.pending, hp]
          simpa using Nat.le_of_lt hlt
        have hin := hstage i e he hpend (by rw [ht.analysis]; exact hfolds)
        have hof := (h.mem_stage hplan he₀ hp).mp hin
        omega
      rw [hmoved.handed, hnot, if_neg (by simp), add_zero]
      exact ht.later hp hlt
    · intro _ _ hph
      cases hph
    · intro hp hof _
      rw [hpassed', ← hpassed] at hof
      have hcur := ht.current hp hof hread
      -- the event goes from what is due to what was handed over
      have herase := e₀.analysis.wanted_erase hev
      rw [hdue, DynAnalysis.wanted_add] at hcur
      show e'.handed + e₀.analysis.wanted (left.erase ev + eventsOf gs.flatten) = _
      rw [hmoved.handed, htakes hp (by omega), DynAnalysis.wanted_add, ← hcur, ← herase]
      abel
    · intro hp hlt
      rw [hpassed', ← hpassed] at hlt
      rw [hmoved.handed]
      by_cases htake : e.takes .backfill ev = true
      · rw [if_pos htake]
        exact hpast i e₀ e he₀ he ht hp hlt harchive htake
      · rw [if_neg htake, add_zero]
        exact ht.past hp hlt

theorem Track.endGroup (h : Track R site n₀ opts plan of n) {clk : Clock}
    (hindex : opts.index = false) (hstep : step site n (.endGroup clk) = some n') :
    Track R site n₀ opts plan of n' := by
  obtain ⟨files, left, gs, filesDone, hphase, hcases⟩ := step_endGroup hstep
  have hnot : n.indexingPass = false := by rw [indexingPass, h.opts, hindex, Bool.and_false]
  rcases hcases with ⟨hcancel, -⟩ | ⟨-, -, hpass, -⟩ | ⟨-, rfl, -, rfl⟩
  · rw [h.cancel] at hcancel
    cases hcancel
  -- only an indexing pass records nothing
  · rw [hnot] at hpass
    cases hpass
  · obtain ⟨hentries, hlive, hstages, hpass, -⟩ :=
      n.pipe.finishPassFiles_spec (files.map ArchiveFile.key) clk
    have hpassed : n.passed = n.pipe.pass := by rw [passed, hphase]
    have hread : n.phase ≠ .passStart := by rw [hphase]; simp
    have hdue : n.due = eventsOf gs.flatten := by
      rw [due, hphase]
      exact zero_add _
    refine ⟨hlive.trans h.live, h.opts, h.cancel, hstages.trans h.stages, ?_,
      lt_of_eq_of_lt hpass h.pass_lt, ?_⟩
    · intro ev hev
      apply h.due_mem
      rw [hdue]
      exact hev
    · refine ⟨hentries.1.trans h.entries.1, ?_⟩
      intro i e₀ e' he₀ he'
      obtain ⟨e, he, ht⟩ := h.entries.forth he₀
      have hrec := hentries.2 i e e' he he'
      have hpassed' : ({ n with
          pipe := n.pipe.finishPassFiles (files.map ArchiveFile.key) clk
          phase := .reading gs (filesDone + files.length) } : Node σ ε).passed = n.passed := by
        rw [hpassed]
        exact hpass
      refine ht.still hpassed' hrec.analysis hrec.needsBackfill hrec.handed (by simp) ?_
      intro hp hof
      have hcur := ht.current hp hof hread
      rw [hdue] at hcur
      exact hcur

/-- With a pass over, the analyses of it are derived, and the passes behind the node are one more,
whether there is another pass or not. -/
theorem Track.advance (h : Track R site n₀ opts plan of n)
    (hplan : Pipeline.Planned n₀.pipe.registry plan of) (hrefl : ∀ s, R s s) {clk : Clock}
    (hstep : step site n (.advance clk) = some n') : Track R site n₀ opts plan of n' := by
  obtain ⟨hphase, rfl⟩ := step_advance hstep
  obtain ⟨hentries, hlive, hstages, -, hflag, hpass⟩ := n.pipe.advancePass_spec clk
  have hpassed : n.passed = n.pipe.pass := by rw [passed, hphase]
  have hread : n.phase ≠ .passStart := by rw [hphase]; simp
  have hdue : n.due = 0 := by rw [due, hphase]
  have hlength : n.pipe.stages.length = plan.length := by rw [h.stages]
  have hlt := h.pass_lt
  obtain ⟨hpassed', hdue', hpass_lt⟩ : ({ n with
      pipe := (n.pipe.advancePass clk).1
      phase := if (n.pipe.advancePass clk).2 then .passStart else .finalizing } :
        Node σ ε).passed = n.pipe.pass + 1 ∧
      ({ n with
        pipe := (n.pipe.advancePass clk).1
        phase := if (n.pipe.advancePass clk).2 then .passStart else .finalizing } :
          Node σ ε).due = 0 ∧ (n.pipe.advancePass clk).1.pass < plan.length := by
    rw [passed, due, hflag, hpass]
    by_cases hneeds : n.pipe.needsAnotherPass = true
    · have hmore : n.pipe.pass + 1 < plan.length := by
        rw [Pipeline.needsAnotherPass, decide_eq_true_eq, hlength] at hneeds
        exact hneeds
      simp only [hneeds, if_true]
      exact ⟨trivial, trivial, hmore⟩
    · have hover : plan.length ≤ n.pipe.pass + 1 := by
        rw [Pipeline.needsAnotherPass, decide_eq_true_eq, hlength] at hneeds
        omega
      simp only [hneeds, Bool.false_eq_true, if_false, hstages]
      exact ⟨by omega, trivial, hlt⟩
  refine ⟨hlive.trans h.live, h.opts, h.cancel, hstages.trans h.stages, ?_, hpass_lt, ?_⟩
  · rw [hdue']
    exact fun ev hev => absurd hev (Multiset.notMem_zero ev)
  · refine ⟨hentries.1.trans h.entries.1, ?_⟩
    intro i e₀ e' he₀ he'
    obtain ⟨e, he, ht⟩ := h.entries.forth he₀
    have hadv := hentries.2 i e e' he he'
    refine ⟨hadv.analysis.trans ht.analysis, ?_, ?_, ?_, ?_, ?_⟩
    · rw [hpassed']
      by_cases hin : i ∈ n.pipe.stage
      · -- it is derived now, and its pass is behind
        rw [hadv.done hin]
        cases hp : e₀.needsBackfill with
        | false => rfl
        | true =>
          have hof := (h.mem_stage hplan he₀ hp).mp hin
          have hpast : ¬ n.pipe.pass + 1 ≤ of i := by omega
          rw [decide_eq_false hpast, Bool.and_false]
      · -- it is as it was, and its pass is another one
        have hsame : e'.needsBackfill = e.needsBackfill := by
          rw [Entry.needsBackfill, Entry.needsBackfill, (hadv.other hin).1]
        rw [hsame, ht.pending, hpassed]
        cases hp : e₀.needsBackfill with
        | false => rfl
        | true =>
          have hof : of i ≠ n.pipe.pass := fun hof => hin ((h.mem_stage hplan he₀ hp).mpr hof)
          rw [Bool.true_and, Bool.true_and, decide_eq_decide]
          omega
    · intro hp hof
      rw [hpassed'] at hof
      rw [hadv.handed]
      exact ht.later hp (by omega)
    · intro hp hof _
      rw [hpassed'] at hof
      rw [hadv.handed]
      exact ht.later hp (by omega)
    · intro hp hof hph
      -- the node is at the top of a pass, or the passes of the plan are over
      rw [hpassed'] at hof
      have hofl := hplan.lt_length i (by rw [pending_of_getElem he₀, hp])
      exfalso
      apply hph
      have hneeds : n.pipe.needsAnotherPass = true := by
        rw [Pipeline.needsAnotherPass, decide_eq_true_eq, hlength]
        omega
      simp only [hflag, hneeds, if_true]
    · intro hp hof
      rw [hpassed'] at hof
      rw [hadv.handed]
      by_cases hcur : of i = n.pipe.pass
      · -- nothing is due any more, so it was handed what it should have been
        have hwas := ht.current hp (by omega) hread
        rw [hdue, DynAnalysis.wanted_zero, add_zero] at hwas
        rw [← hwas]
        exact hrefl _
      · exact ht.past hp (by omega)

theorem Track.finalize (h : Track R site n₀ opts plan of n) {clk : Clock}
    (hstep : step site n (.finalize clk) = some n') : Track R site n₀ opts plan of n' := by
  obtain ⟨hphase, rfl⟩ := step_finalize hstep
  have hquiet : Pipeline.Quiet n.pipe (n.pipe.refreshInner true clk) :=
    n.pipe.refreshInner_quiet true clk
  have hpassed : n.passed = n.pipe.stages.length := by rw [passed, hphase]
  have hread : n.phase ≠ .passStart := by rw [hphase]; simp
  have hdue : n.due = 0 := by rw [due, hphase]
  have hpassed' : ({ n with pipe := n.pipe.goLive clk, phase := .idle } : Node σ ε).passed =
      n.passed := by
    rw [hpassed]
    exact congrArg List.length hquiet.stages
  refine ⟨rfl, h.opts, h.cancel, hquiet.stages.trans h.stages,
    fun ev hev => absurd hev (Multiset.notMem_zero ev), lt_of_eq_of_lt hquiet.pass h.pass_lt, ?_⟩
  refine h.entries.trans hquiet.still ?_
  intro i e₀ e e' ht hmoved
  have hhanded : e'.handed = e.handed := by rw [hmoved.handed, add_zero]
  refine ht.still hpassed' hmoved.analysis hmoved.needsBackfill hhanded (by simp) ?_
  intro hp hof
  have hcur := ht.current hp hof hread
  rw [hdue] at hcur
  exact hcur

/-- What a fold must not do to an analysis whose pass is over. -/
def Keeps (R : Multiset NostrEvent → Multiset NostrEvent → Prop) (site : Site σ ε)
    (n₀ : Node σ ε) (of : ℕ → ℕ) (n : Node σ ε) : ReplayAct → Prop
  | .fold ev _ => ∀ i e₀ e, n₀.pipe.registry.entries[i]? = some e₀ →
      n.pipe.registry.entries[i]? = some e → Tracked R site of n i e₀ e →
      e₀.needsBackfill = true → of i < n.passed → ev ∈ eventsOf site.archive →
      e.takes .backfill ev = true →
      R (e₀.handed + e₀.analysis.wanted (eventsOf site.archive)) (e.handed + {ev})
  | _ => True

theorem Track.step (h : Track R site n₀ opts plan of n)
    (hplan : Pipeline.Planned n₀.pipe.registry plan of) (hindex : opts.index = false)
    (hstop : opts.stopAfterFiles = none) (hrefl : ∀ s, R s s) {a : ReplayAct}
    (ha : a.Uninterrupted) (hwhole : WholeFiles site n a) (hstage : InStage n a)
    (hkeeps : Keeps R site n₀ of n a) (hstep : Node.step site n a = some n') :
    Track R site n₀ opts plan of n' := by
  cases a with
  | pass => exact h.pass hplan hindex hwhole hstep
  | nextGroup => exact h.nextGroup hstop hstep
  | fold ev clk => exact h.fold hplan hstage hkeeps hstep
  | endGroup clk => exact h.endGroup hindex hstep
  | advance clk => exact h.advance hplan hrefl hstep
  | finalize clk => exact h.finalize hstep
  | start | cancel | finish | restart | reset | resetAll => exact absurd ha id

theorem track_started {stages : List (List ℕ)} (R : Multiset NostrEvent → Multiset NostrEvent → Prop)
    (site : Site σ ε) (of : ℕ → ℕ) (hlive : n₀.pipe.live = true)
    (hstages : n₀.pipe.registry.stages = .ok stages) (hindex : opts.index = false) :
    Track R site n₀ opts n₀.pipe.planReplay.1.stages of (n₀.started opts) := by
  have hplanned : n₀.planned opts = n₀.pipe.planReplay.1 := by
    rw [planned, hindex, if_neg (by simp)]
  obtain ⟨hregistry, hsame, hpass, hpos⟩ : n₀.pipe.planReplay.1.registry = n₀.pipe.registry ∧
      n₀.pipe.planReplay.1.live = n₀.pipe.live ∧ n₀.pipe.planReplay.1.pass = 0 ∧
      0 < n₀.pipe.planReplay.1.stages.length := by
    rw [Pipeline.planReplay, hstages]
    refine ⟨rfl, rfl, rfl, ?_⟩
    rw [List.length_map, List.length_range]
    exact Pipeline.passCount_pos _ _
  have hpassed : (n₀.started opts).passed = 0 := by
    show (n₀.planned opts).pass = 0
    rw [hplanned, hpass]
  refine ⟨?_, rfl, rfl, ?_, fun ev hev => absurd hev (Multiset.notMem_zero ev), ?_, ?_⟩
  · show (n₀.planned opts).live = true
    rw [hplanned, hsame, hlive]
  · show (n₀.planned opts).stages = _
    rw [hplanned]
  · show (n₀.planned opts).pass < _
    rw [hplanned, hpass]
    exact hpos
  · have hreg : (n₀.started opts).pipe.registry = n₀.pipe.registry := by
      show (n₀.planned opts).registry = _
      rw [hplanned, hregistry]
    rw [hreg]
    apply Registry.pointwise_refl
    intro i e
    refine ⟨rfl, ?_, fun _ _ => rfl, fun _ _ _ => rfl, fun _ _ hph => absurd rfl hph, ?_⟩
    · rw [hpassed, decide_eq_true (Nat.zero_le _), Bool.and_true]
    · intro _ hlt
      rw [hpassed] at hlt
      omega

end Node

end NostrSearch.Indexer
