import NostrSearch.Indexer.ReplayTrack

/-!
# A replay on a live node

On a live pipeline `fold_only` hands every event to every analysis, whatever pass the replay is
in. An analysis whose pass is still to come is given the events of the earlier passes as well,
before what it depends on is in the world, and again in its own; one that is derived is kept from
a repeat by its watermark and its ids only, which a backfill does not fill in.

`replayed_once_iff` is about one uninterrupted stats-only ingest of a live node. `ReplayedOnce`,
`InOrder` and `NotAgain` are what it should do. Where every pass reads the files its analyses
want something of, it does so if and only if no event goes to an analysis of a later pass
(`InStage`), and the gate of a derived analysis is closed to what it was handed (`GateClosed`).
-/

namespace NostrSearch.Indexer

open NostrSearch.Core NostrSearch.Lib NostrSearch.Stats

namespace Node

variable {σ ε : Type} {site : Site σ ε} {n₀ n n' : Node σ ε}
  {R : Multiset NostrEvent → Multiset NostrEvent → Prop} {opts : ReplayOptions}
  {plan : List (List ℕ)} {of : ℕ → ℕ}

/-! ## What a replay should do -/

/-- Each analysis that was to be derived was handed every event of the archive that it wants,
once. -/
def ReplayedOnce (site : Site σ ε) (n₀ n₁ : Node σ ε) : Prop :=
  ∀ (i : ℕ) (e₀ : Entry σ ε), n₀.pipe.registry.entries[i]? = some e₀ → e₀.needsBackfill = true →
    ∃ e₁, n₁.pipe.registry.entries[i]? = some e₁ ∧
      e₁.handed = e₀.handed + e₀.analysis.wanted (eventsOf site.archive)

/-- An analysis that was to be derived is handed an event only when those it depends on are
derived, and so in the world: `advancePass` materializes before it marks. -/
def InOrder (n₀ n : Node σ ε) : ReplayAct → Prop
  | .fold ev _ => ∀ (i : ℕ) (e : Entry σ ε), n.pipe.registry.entries[i]? = some e →
      n₀.pipe.registry.pending i = true → e.takes .backfill ev = true →
      ∀ (d : ℕ) (e' : Entry σ ε), n₀.pipe.registry.entries[d]? = some e' →
        e'.name ∈ e.analysis.deps → n.pipe.registry.pending d = false
  | _ => True

/-- An analysis that was derived is not handed an event a second time. -/
def NotAgain (n₀ n : Node σ ε) : ReplayAct → Prop
  | .fold ev _ => ∀ (i : ℕ) (e : Entry σ ε), n.pipe.registry.entries[i]? = some e →
      n₀.pipe.registry.pending i = false → ev ∈ e.handed → e.takes .backfill ev = false
  | _ => True

/-- The gate of a derived analysis is closed to an event that it was handed. -/
def GateClosed (n : Node σ ε) : ReplayAct → Prop
  | .fold ev _ => ∀ e ∈ n.pipe.registry.entries, e.needsBackfill = false → ev ∈ e.handed →
      e.takes .backfill ev = false
  | _ => True

/-! ## The replay -/

/-- With its pass over and its gate closed to what it was handed, an analysis takes nothing of
the archive. -/
theorem keeps_of_gateClosed {a : ReplayAct} (hgate : GateClosed n a) :
    Keeps Eq site n₀ of n a := by
  cases a with
  | fold ev clk =>
    intro i e₀ e he₀ he ht hp hlt hev htake
    have hderived : e.needsBackfill = false := by
      rw [ht.pending, decide_eq_false (by omega), Bool.and_false]
    have hhanded : ev ∈ e.handed := by
      rw [← ht.past hp hlt, Multiset.mem_add]
      refine Or.inr (Multiset.mem_filter.mpr ⟨hev, ?_⟩)
      rw [← ht.analysis]
      exact Entry.folds_of_takes htake
    have hclosed := hgate e (List.mem_of_getElem? he) hderived hhanded
    rw [hclosed] at htake
    cases htake
  | _ => trivial

theorem keeps_le (a : ReplayAct) : Keeps LE.le site n₀ of n a := by
  cases a with
  | fold ev clk =>
    intro i e₀ e he₀ he ht hp hlt _ _
    exact (ht.past hp hlt).trans (Multiset.le_add_right _ _)
  | _ => trivial

/-- A later analysis has a dependency that is not derived yet. -/
theorem inStage_of_inOrder (h : Track R site n₀ opts plan of n)
    (hplan : Pipeline.Planned n₀.pipe.registry plan of) {a : ReplayAct}
    (horder : InOrder n₀ n a) (hstep : Node.step site n a = some n') : InStage n a := by
  cases a with
  | fold ev clk =>
    obtain ⟨_, _, _, _, hphase, -⟩ := step_fold hstep
    have hpassed : n.passed = n.pipe.pass := by rw [passed, hphase]
    intro i e he hpend hfolds
    obtain ⟨e₀, he₀, ht⟩ := h.entries.back he
    have hboth := ht.pending
    rw [hpend, eq_comm, Bool.and_eq_true, decide_eq_true_eq] at hboth
    obtain ⟨hp, hle⟩ := hboth
    rw [h.mem_stage hplan he₀ hp]
    by_contra hne
    obtain ⟨e₀', d, d₀, he₀', hd₀, hdep, hdp, hof⟩ := hplan.behind i (by omega)
    rw [he₀, Option.some.injEq] at he₀'
    subst he₀'
    -- the dependency in the pass before the entry's own
    obtain ⟨d', hd', htd⟩ := h.entries.forth hd₀
    have hdone : n.pipe.registry.pending d = false := by
      refine horder i e he ?_ ?_ d d₀ hd₀ (by rw [ht.analysis]; exact hdep)
      · rw [pending_of_getElem he₀, hp]
      · rw [Entry.takes_of_needsBackfill hpend, hfolds]
    rw [pending_of_getElem hd₀] at hdp
    rw [pending_of_getElem hd', htd.pending, hdp, Bool.true_and, decide_eq_false_iff_not] at hdone
    omega
  | _ => trivial

theorem inOrder_of_track (h : Track Eq site n₀ opts plan of n)
    (hplan : Pipeline.Planned n₀.pipe.registry plan of) {a : ReplayAct} (hstage : InStage n a)
    (hgate : GateClosed n a) (hstep : Node.step site n a = some n') : InOrder n₀ n a := by
  cases a with
  | fold ev clk =>
    obtain ⟨files, left, gs, filesDone, hphase, -, hev, -⟩ := step_fold hstep
    have hpassed : n.passed = n.pipe.pass := by rw [passed, hphase]
    have harchive : ev ∈ eventsOf site.archive := by
      apply h.due_mem
      rw [due, hphase]
      exact Multiset.mem_add.mpr (Or.inl hev)
    intro i e he hp htake d d₀ hd₀ hdep
    obtain ⟨e₀, he₀, ht⟩ := h.entries.back he
    rw [pending_of_getElem he₀] at hp
    have hlt : ¬ of i < n.passed := fun hlt =>
      absurd (keeps_of_gateClosed hgate i e₀ e he₀ he ht hp hlt harchive htake) <| by
        rw [ht.past hp hlt]
        simp
    have hpend : e.needsBackfill = true := by
      rw [ht.pending, hp, decide_eq_true (by omega), Bool.and_true]
    have hin := hstage i e he hpend (Entry.folds_of_takes htake)
    have hof := (h.mem_stage hplan he₀ hp).mp hin
    obtain ⟨d', hd', htd⟩ := h.entries.forth hd₀
    rw [pending_of_getElem hd', htd.pending]
    cases hdp : d₀.needsBackfill with
    | false => rfl
    | true =>
      have hbefore := hplan.dep_lt i e₀ he₀ d d₀ hd₀ (by rw [← ht.analysis]; exact hdep)
        (by rw [pending_of_getElem hd₀, hdp])
      rw [decide_eq_false (by omega), Bool.and_false]
  | _ => trivial

/-- An analysis that was derived stays so. -/
theorem notAgain_of_track (h : Track R site n₀ opts plan of n) {a : ReplayAct}
    (hgate : GateClosed n a) : NotAgain n₀ n a := by
  cases a with
  | fold ev clk =>
    intro i e he hp hev
    obtain ⟨e₀, he₀, ht⟩ := h.entries.back he
    rw [pending_of_getElem he₀] at hp
    have hderived : e.needsBackfill = false := by rw [ht.pending, hp, Bool.false_and]
    exact hgate e (List.mem_of_getElem? he) hderived hev
  | _ => trivial

/-- Nothing that was handed over is taken back. -/
theorem step_grows (hnodup : ∀ k, (n.pipe.stages.getD k []).Nodup) {a : ReplayAct}
    (ha : a.Uninterrupted) (hstep : Node.step site n a = some n') :
    n'.pipe.stages = n.pipe.stages ∧ Registry.Pointwise (fun _ e e' => e.handed ≤ e'.handed)
      n.pipe.registry n'.pipe.registry := by
  have hsame : Registry.Pointwise (fun _ (e e' : Entry σ ε) => e.handed ≤ e'.handed)
      n.pipe.registry n.pipe.registry := Registry.pointwise_refl (fun _ (e : Entry σ ε) => le_refl e.handed) _
  have hmoved : ∀ (s : Multiset NostrEvent) (e e' : Entry σ ε), Entry.Moved s e e' →
      e.handed ≤ e'.handed := by
    intro s e e' h
    rw [h.handed]
    exact Multiset.le_add_right _ _
  cases a with
  | pass =>
    obtain ⟨-, ⟨-, rfl⟩ | ⟨-, -, rfl⟩ | ⟨-, -, rfl⟩⟩ := step_pass hstep
    all_goals exact ⟨rfl, hsame⟩
  | nextGroup =>
    obtain ⟨_, _, -, ⟨rfl, -⟩ | ⟨-, -, rfl⟩ | ⟨-, _, _, -, rfl⟩⟩ := step_nextGroup hstep
    all_goals exact ⟨rfl, hsame⟩
  | fold ev clk =>
    obtain ⟨_, _, _, _, -, -, -, rfl⟩ := step_fold hstep
    obtain ⟨hentries, -, hstages, -⟩ := n.pipe.foldOnly_spec ev clk (hnodup n.pipe.pass)
    exact ⟨hstages, hentries.mono fun _ e e' h => hmoved _ e e' h⟩
  | endGroup clk =>
    obtain ⟨files, _, _, _, -, ⟨-, rfl⟩ | ⟨-, -, -, rfl⟩ | ⟨-, -, -, rfl⟩⟩ := step_endGroup hstep
    · exact ⟨rfl, hsame⟩
    · exact ⟨rfl, hsame⟩
    · obtain ⟨hentries, -, hstages, -⟩ :=
        n.pipe.finishPassFiles_spec (files.map ArchiveFile.key) clk
      exact ⟨hstages, hentries.mono fun _ e e' h => le_of_eq h.handed.symm⟩
  | advance clk =>
    obtain ⟨-, rfl⟩ := step_advance hstep
    obtain ⟨hentries, -, hstages, -⟩ := n.pipe.advancePass_spec clk
    exact ⟨hstages, hentries.mono fun _ e e' h => le_of_eq h.handed.symm⟩
  | finalize clk =>
    obtain ⟨-, rfl⟩ := step_finalize hstep
    have hquiet : Pipeline.Quiet n.pipe (n.pipe.refreshInner true clk) :=
      n.pipe.refreshInner_quiet true clk
    exact ⟨hquiet.stages, hquiet.still.mono fun _ e e' h => hmoved _ e e' h⟩
  | start | cancel | finish | restart | reset | resetAll => exact absurd ha id

theorem run_grows {as : List ReplayAct} (hnodup : ∀ k, (n.pipe.stages.getD k []).Nodup)
    (has : ∀ a ∈ as, a.Uninterrupted) (hrun : run (Node.step site) n as = some n') :
    Registry.Pointwise (fun _ e e' => e.handed ≤ e'.handed) n.pipe.registry
      n'.pipe.registry := by
  induction as generalizing n with
  | nil =>
    cases hrun
    exact Registry.pointwise_refl (fun _ (e : Entry σ ε) => le_refl e.handed) _
  | cons a as ih =>
    obtain ⟨m, hm, hrest⟩ := run_cons_some.mp hrun
    obtain ⟨hstages, hgrows⟩ := step_grows hnodup (has a List.mem_cons_self) hm
    have hlater := ih (by rw [hstages]; exact hnodup)
      (fun b hb => has b (List.mem_cons_of_mem a hb)) hrest
    exact hgrows.trans hlater fun _ _ _ _ h h' => h.trans h'

/-- A replay that ends with each analysis handed everything once handed nothing to an analysis
whose pass was over. -/
theorem along_of_replayedOnce {as : List ReplayAct} {n₁ : Node σ ε}
    (h : Track LE.le site n₀ opts plan of n) (hplan : Pipeline.Planned n₀.pipe.registry plan of)
    (hindex : opts.index = false) (hstop : opts.stopAfterFiles = none)
    (has : ∀ a ∈ as, a.Uninterrupted) (hwhole : Along (Node.step site) (WholeFiles site) n as)
    (horder : Along (Node.step site) (InOrder n₀) n as)
    (hagain : Along (Node.step site) (NotAgain n₀) n as)
    (hrun : run (Node.step site) n as = some n₁) (honce : ReplayedOnce site n₀ n₁) :
    Along (Node.step site) (fun n a => InStage n a ∧ GateClosed n a) n as := by
  induction as generalizing n with
  | nil => trivial
  | cons a as ih =>
    intro n' hstep
    have ha := has a List.mem_cons_self
    have has' : ∀ b ∈ as, b.Uninterrupted := fun b hb => has b (List.mem_cons_of_mem a hb)
    obtain ⟨horder', horders⟩ := horder n' hstep
    obtain ⟨hagain', hagains⟩ := hagain n' hstep
    obtain ⟨hwhole', hwholes⟩ := hwhole n' hstep
    have hrest : run (Node.step site) n' as = some n₁ := by
      rw [run_cons, hstep, Option.bind_some] at hrun
      exact hrun
    have hstage := inStage_of_inOrder h hplan horder' hstep
    have hnext := h.step hplan hindex hstop (fun s => le_refl s) ha hwhole' hstage (keeps_le a) hstep
    refine ⟨⟨hstage, ?_⟩, ih hnext has' hwholes horders hagains hrest⟩
    cases a with
    | fold ev clk =>
      obtain ⟨_, _, _, _, -, -, -, rfl⟩ := step_fold hstep
      intro e hmem hderived hev
      obtain ⟨i, e₀, he₀, he, ht⟩ := h.entries.exists_of_mem hmem
      cases hp : e₀.needsBackfill with
      | false => exact hagain' i e he (by rw [pending_of_getElem he₀, hp]) hev
      | true =>
        -- what is handed to it now, it has too much in the end
        by_contra htake
        rw [Bool.not_eq_false] at htake
        have hlt : of i < n.passed := by
          rw [ht.pending, hp, Bool.true_and, decide_eq_false_iff_not] at hderived
          omega
        have hrouted : i ∈ n.pipe.routed := by
          rw [Pipeline.routed, h.live, if_pos rfl]
          exact List.mem_range.mpr (List.getElem?_eq_some_iff.mp he).1
        obtain ⟨hentries, -⟩ := n.pipe.foldOnly_spec ev clk (h.nodup_stage hplan)
        obtain ⟨e', he', hmoved⟩ := hentries.forth he
        rw [if_pos ⟨hrouted, htake⟩] at hmoved
        have hgrows := run_grows (by rw [hnext.stages]; exact hplan.nodup) has' hrest
        obtain ⟨e₁, he₁, hle⟩ := hgrows.forth he'
        obtain ⟨e₁', he₁', hall⟩ := honce i e₀ he₀ hp
        rw [he₁, Option.some.injEq] at he₁'
        subst he₁'
        have hpast := ht.past hp hlt
        rw [hmoved.handed, hall] at hle
        have hcard := Multiset.card_le_card hle
        have hcard' := Multiset.card_le_card hpast
        simp only [Multiset.card_add, Multiset.card_singleton] at hcard hcard'
        omega
    | _ => trivial

/-- **A replay on a live node**, with nothing to interrupt it, where each pass reads all the files
its analyses want something of. It hands every event of the archive to each analysis that was to
be derived, once and in the order of the dependencies, and hands no derived analysis an event
again, if and only if no event goes to an analysis of a later pass and the gates of the derived
analyses are closed to what they were handed. -/
theorem replayed_once_iff {stages : List (List ℕ)} {as : List ReplayAct} {n₁ : Node σ ε}
    (hlive : n₀.pipe.live = true) (hstages : n₀.pipe.registry.stages = .ok stages)
    (hnames : n₀.pipe.registry.names.Nodup) (hindex : opts.index = false)
    (hstop : opts.stopAfterFiles = none) (has : ∀ a ∈ as, a.Uninterrupted)
    (hrun : run (Node.step site) n₀ (.start opts :: as) = some n₁) (hdone : n₁.phase = .idle)
    (hwhole : Along (Node.step site) (WholeFiles site) n₀ (.start opts :: as)) :
    (ReplayedOnce site n₀ n₁ ∧ Along (Node.step site) (InOrder n₀) n₀ (.start opts :: as) ∧
        Along (Node.step site) (NotAgain n₀) n₀ (.start opts :: as)) ↔
      Along (Node.step site) (fun n a => InStage n a ∧ GateClosed n a) n₀ (.start opts :: as) := by
  obtain ⟨of, hplan⟩ : ∃ of, Pipeline.Planned _ (n₀.pipe.planReplay.1).stages of :=
    ⟨_, Pipeline.planned_passOf hstages hnames⟩
  obtain ⟨n, hstart, hrest⟩ := run_cons_some.mp hrun
  obtain ⟨-, rfl⟩ := step_start hstart
  obtain ⟨-, hwholes⟩ := hwhole _ hstart
  -- the first step is the start of the ingest
  have hcons : ∀ ok : Node σ ε → ReplayAct → Prop, ok n₀ (.start opts) →
      Along (Node.step site) ok (n₀.started opts) as →
      Along (Node.step site) ok n₀ (.start opts :: as) := by
    intro ok hok hoks n' hn'
    rw [hstart, Option.some.injEq] at hn'
    subst hn'
    exact ⟨hok, hoks⟩
  have hstarted : ∀ R, Track R site n₀ opts n₀.pipe.planReplay.1.stages of (n₀.started opts) :=
    fun R => track_started R site of hlive hstages hindex
  constructor
  · rintro ⟨honce, horder, hagain⟩
    refine hcons _ ⟨trivial, trivial⟩ ?_
    exact along_of_replayedOnce (hstarted LE.le) hplan hindex hstop has hwholes
      (horder _ hstart).2 (hagain _ hstart).2 hrest honce
  · intro hok
    have hsteps := hwholes.and (hok _ hstart).2
    have hkeep : ∀ n a n', Track Eq site n₀ opts n₀.pipe.planReplay.1.stages of n →
        a.Uninterrupted → WholeFiles site n a ∧ InStage n a ∧ GateClosed n a →
        Node.step site n a = some n' →
        Track Eq site n₀ opts n₀.pipe.planReplay.1.stages of n' := by
      intro n a n' h ha hn hstep
      exact h.step hplan hindex hstop (fun _ => rfl) ha hn.1 hn.2.1 (keeps_of_gateClosed hn.2.2) hstep
    have hend : Track Eq site n₀ opts n₀.pipe.planReplay.1.stages of n₁ := by
      refine run_invariant ?_ (hstarted Eq) (hsteps.and_mem has) hrest
      intro n a n' h hn hstep
      exact hkeep n a n' h hn.2 hn.1 hstep
    refine ⟨?_, hcons _ trivial ?_, hcons _ trivial ?_⟩
    · intro i e₀ he₀ hp
      obtain ⟨e₁, he₁, ht⟩ := hend.entries.forth he₀
      have hlt := hplan.lt_length i (by rw [pending_of_getElem he₀, hp])
      have hpassed : n₁.passed = n₀.pipe.planReplay.1.stages.length := by
        rw [passed, hdone]
        exact congrArg List.length hend.stages
      exact ⟨e₁, he₁, (ht.past hp (by rw [hpassed]; exact hlt)).symm⟩
    · refine Along.imp hkeep ?_ (hstarted Eq) has hsteps
      intro n a n' h _ hn hstep
      exact inOrder_of_track h hplan hn.2.1 hn.2.2 hstep
    · refine Along.imp hkeep ?_ (hstarted Eq) has hsteps
      intro n a n' h _ hn hstep
      exact notAgain_of_track h hn.2.2

end Node

/-! ## Two passes -/

section Runs

open Node

/-- An analysis that counts the events it is handed. -/
private def tally (name : String) (deps : List String) : DynAnalysis ℕ Unit :=
  { name := name, epoch := 0, deps := deps, refreshInterval := none, kinds := none
    default := 0, attach := fun _ n => n, observe := fun _ _ _ n => (n + 1, (), true)
    refresh := fun _ n => n, contribute := fun _ w => w, onReset := fun _ _ => ()
    restored := fun n => n }

private def oldNote : NostrEvent :=
  { id := "5c83da77af1dec6d7289834998ad7aafbd9e2191396d75ec3cc27f5a77226f36"
    pubkey := "f7234bd4c1394dda46d09f35bd384dd30cc552ad5541990f98844fb06676e9ca"
    createdAt := 1700000000, kind := 1, tags := [], content := "", sig := "" }

private def tick : Clock := { wall := 1700200000, mono := 0 }

/-- Two analyses, the second of which depends on the first, and one file with one event. -/
private def twoTallies : Site ℕ Unit :=
  { cfg := { wotRefreshEvery := 1000, minRefreshInterval := 0, persistInterval := 0 }
    analyses := [tally "first" [], tally "second" ["first"]]
    archive := [{ key := "dump", len := 1, events := [oldNote] }] }

/-- A live node with these entries. -/
private def liveNode (entries : List (Entry ℕ Unit)) : Node ℕ Unit :=
  { pipe :=
      { registry := { entries := entries, totalEvents := 0, ext := () }
        world := World.empty, store := none, cfg := twoTallies.cfg, live := true
        stages := [[0], [1]], pass := 0, sinceRefresh := 0, lastRefresh := 0, lastPersist := 0
        refreshedOnce := true }
    phase := .idle, opts := { parallelism := 1, index := false, stopAfterFiles := none }
    cancel := false }

private def statsOnly : ReplayOptions := { parallelism := 1, index := false, stopAfterFiles := none }

private def onePass : List ReplayAct :=
  [.pass, .nextGroup, .fold oldNote tick, .endGroup tick, .nextGroup, .advance tick]

/-- The first analysis is derived, and long past the event. -/
private def secondPending : Node ℕ Unit :=
  liveNode [{ Entry.new (tally "first" []) with
    progress := { Progress.fresh 0 with backfilled := true, watermark := 1700100000 }
    log := [{ ev := oldNote, ctx :=
      { now := 1700000000, author := Vector.replicate 32 0, eventId := Vector.replicate 32 0
        world := World.empty } }] }, Entry.new (tally "second" ["first"])]

private def bothPending : Node ℕ Unit := liveNode (twoTallies.analyses.map Entry.new)

/-- No file is left out, every analysis still to be derived is in the pass, and no other takes
the event. -/
private def smooth (n : Node ℕ Unit) : ReplayAct → Bool
  | .pass => twoTallies.archive.all fun f => !n.pipe.passFileDone f.key
  | .fold ev _ => (List.range n.pipe.registry.entries.length).all (fun i =>
      !n.pipe.registry.pending i || decide (i ∈ n.pipe.stage)) &&
    n.pipe.registry.entries.all fun e => e.needsBackfill || !e.takes .backfill ev
  | _ => true

private theorem wholeFiles_of_smooth (n : Node ℕ Unit) (a : ReplayAct) (h : smooth n a = true) :
    WholeFiles twoTallies n a := by
  cases a with
  | pass =>
    intro i e _ _ _ f hf hdone
    have hread := List.all_eq_true.mp h f hf
    rw [hdone] at hread
    cases hread
  | _ => trivial

private theorem closed_of_smooth (n : Node ℕ Unit) (a : ReplayAct) (h : smooth n a = true) :
    InStage n a ∧ GateClosed n a := by
  cases a with
  | fold ev clk =>
    rw [smooth, Bool.and_eq_true] at h
    constructor
    · intro i e he hpend _
      have hi : i < n.pipe.registry.entries.length := (List.getElem?_eq_some_iff.mp he).1
      have hin := List.all_eq_true.mp h.1 i (List.mem_range.mpr hi)
      rw [pending_of_getElem he, hpend] at hin
      simpa using hin
    · intro e he hderived _
      have hnot := List.all_eq_true.mp h.2 e he
      rw [hderived] at hnot
      simpa using hnot
  | _ => exact ⟨trivial, trivial⟩

/-- The second analysis is derived in one pass. -/
theorem one_pass_replays_once :
    ∃ n₁, run (step twoTallies) secondPending (.start statsOnly :: (onePass ++ [.finalize tick])) =
        some n₁ ∧
      ReplayedOnce twoTallies secondPending n₁ ∧
      Along (step twoTallies) (InOrder secondPending) secondPending
        (.start statsOnly :: (onePass ++ [.finalize tick])) ∧
      Along (step twoTallies) (NotAgain secondPending) secondPending
        (.start statsOnly :: (onePass ++ [.finalize tick])) := by
  have hwhole : Along (step twoTallies) (WholeFiles twoTallies) secondPending
      (.start statsOnly :: (onePass ++ [.finalize tick])) :=
    along_of_alongB wholeFiles_of_smooth (by decide +kernel)
  have hclosed : Along (step twoTallies) (fun n a => InStage n a ∧ GateClosed n a) secondPending
      (.start statsOnly :: (onePass ++ [.finalize tick])) :=
    along_of_alongB closed_of_smooth (by decide +kernel)
  refine ⟨_, rfl, (replayed_once_iff rfl rfl (by decide) rfl rfl ?_ rfl rfl hwhole).mpr hclosed⟩
  simp [onePass, ReplayAct.Uninterrupted]

/-- With both to be derived the event is handed to the second one in the pass of the first, and
to both in the pass of the second. -/
theorem two_passes_replay_twice :
    ¬ ∀ as : List ReplayAct, (∀ a ∈ as, a.Uninterrupted) →
      ∀ n₁, run (step twoTallies) bothPending (.start statsOnly :: as) = some n₁ →
        n₁.phase = .idle →
        ReplayedOnce twoTallies bothPending n₁ := by
  intro h
  have honce := h (onePass ++ onePass ++ [.finalize tick])
    (by simp [onePass, ReplayAct.Uninterrupted]) _ rfl rfl
  obtain ⟨e₁, he₁, hhanded⟩ := honce 1 _ rfl rfl
  rw [← Option.some.inj he₁] at hhanded
  revert hhanded
  decide +kernel

end Runs

end NostrSearch.Indexer
