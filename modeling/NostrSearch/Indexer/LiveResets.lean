import NostrSearch.Indexer.ReplayTrack

/-!
# Resetting an analysis during a replay

A replay runs on the pipeline of a live node, next to the writer task, which folds live events and
takes the commands of the operator. Each takes the pipeline lock for one step at a time, so an
analysis can be reset anywhere in a pass, and the pass ends by marking its analyses backfilled.

`Owed` is what a node has still to do for an entry: what it wants of the archive it was handed, or
it is in a file that is not recorded for it; and in a pass, it was handed or the pass will hand it
over. `backfilled_has_all` says that an analysis that is backfilled was handed everything it wants
since it was last reset, as long as no analysis of the pass is reset when part of what it wants
is behind the pass (`ResetsUnread`).
-/

namespace NostrSearch.Indexer

open NostrSearch.Core NostrSearch.Lib NostrSearch.Stats

/-- A step on the pipeline of a live node. -/
inductive LiveAct
  | replay (a : ReplayAct)
  /-- the writer folds a live event -/
  | process (ev : NostrEvent) (clk : Clock)
  /-- the operator resets an analysis -/
  | reset (name : String)

/-- The steps of an ingest. -/
def ReplayAct.ofIngest : ReplayAct → Bool
  | .start _ | .pass | .nextGroup | .fold _ _ | .endGroup _ | .advance _ | .finalize _ | .cancel =>
    true
  | .finish _ | .restart _ | .reset _ | .resetAll => false

namespace Pipeline

variable {σ ε : Type} {p : Pipeline σ ε}

/-- A doomed entry starts anew, and the others are where they were. -/
structure Discarded (doomed : Prop) (e e' : Entry σ ε) : Prop where
  analysis : e'.analysis = e.analysis
  gone : doomed → e'.progress = Progress.fresh e.analysis.epoch ∧ e'.log = []
  kept : ¬ doomed → e'.progress = e.progress ∧ e'.log = e.log

/-- **`resetAnalysis`** discards the entries the name dooms. -/
theorem resetAnalysis_spec {name : String} {r : Pipeline σ ε × List String}
    (h : p.resetAnalysis name = some r) :
    Registry.Pointwise (fun _ e => Discarded (e.name ∈ p.registry.doomed name) e) p.registry
        r.1.registry ∧ r.1.live = p.live ∧ r.1.stage = p.stage := by
  obtain ⟨r', hr', rfl⟩ := Option.map_eq_some_iff.mp h
  rw [Registry.reset] at hr'
  split at hr'
  case isFalse => cases hr'
  case isTrue =>
    rw [Option.some.injEq] at hr'
    subst hr'
    -- the entries that are kept may be attached anew
    have hsame : ∀ q : Pipeline σ ε, Registry.Pointwise (fun _ e e' => e'.analysis = e.analysis ∧
          e'.progress = e.progress ∧ e'.log = e.log) q.registry q.reattachGraph.registry ∧
        q.reattachGraph.live = q.live ∧ q.reattachGraph.stage = q.stage := by
      intro q
      unfold reattachGraph
      split
      · refine ⟨⟨List.length_map .., ?_⟩, rfl, rfl⟩
        intro i e e' he he'
        rw [Registry.attachAll, List.getElem?_map, he] at he'
        rw [← Option.some.inj he']
        exact ⟨rfl, rfl, rfl⟩
      · exact ⟨Registry.pointwise_refl (fun _ _ => ⟨rfl, rfl, rfl⟩) _, rfl, rfl⟩
    obtain ⟨hentries, hlive, hstage⟩ := hsame { p with
      registry := p.registry.resetWhere fun e => decide (e.name ∈ p.registry.doomed name) }
    refine ⟨?_, hlive, hstage⟩
    refine Registry.Pointwise.trans (R := fun _ e e' => e' =
      if decide (e.name ∈ p.registry.doomed name) then e.reset else e) ?_ hentries ?_
    · refine ⟨List.length_map .., ?_⟩
      intro i e e' he he'
      rw [Registry.resetWhere, List.getElem?_map, he] at he'
      exact (Option.some.inj he').symm
    · rintro i e _ e'' rfl ⟨hanalysis, hprogress, hlog⟩
      by_cases hdoomed : e.name ∈ p.registry.doomed name
      · simp only [hdoomed, decide_true, if_true] at hanalysis hprogress hlog
        exact ⟨hanalysis, fun _ => ⟨hprogress, hlog⟩, fun hnot => absurd hdoomed hnot⟩
      · simp only [hdoomed, decide_false, Bool.false_eq_true, if_false] at hanalysis hprogress hlog
        exact ⟨hanalysis, fun hd => absurd hd hdoomed, fun _ => ⟨hprogress, hlog⟩⟩

/-- With its pass, the rebuild of an analysis is over. -/
theorem advancePass_cleared (p : Pipeline σ ε) (clk : Clock) {i : ℕ} {e' : Entry σ ε}
    (hi : i ∈ p.stage) (he' : (p.advancePass clk).1.registry.entries[i]? = some e') :
    e'.progress.rebuild.completed = [] := by
  rw [advancePass_eq, Registry.clearRebuild_getElem, if_pos hi, Option.map_eq_some_iff] at he'
  obtain ⟨e, -, rfl⟩ := he'
  rfl

end Pipeline

namespace Node

variable {σ ε : Type} {site : Site σ ε} {n n' : Node σ ε}

def liveStep (site : Site σ ε) (n : Node σ ε) : LiveAct → Option (Node σ ε)
  | .replay a => if a.ofIngest then step site n a else none
  | .process ev clk => some { n with pipe := n.pipe.foldOnly ev clk }
  | .reset name => (n.pipe.resetAnalysis name).map fun r => { n with pipe := r.1 }

/-- A process that has come up with an empty state directory or none, and is live. -/
def bootLive (site : Site σ ε) (ext : ε) (persistent : Bool) (clk : Clock) : Option (Node σ ε) :=
  (boot site ext (if persistent then some fun _ => none else none) clk).map fun n =>
    { n with pipe := n.pipe.goLive clk }

/-- Every analysis that is backfilled was handed what it wants of the archive. An entry's log
starts anew when it is reset. -/
def BackfilledHasAll (site : Site σ ε) (n : Node σ ε) : Prop :=
  ∀ e ∈ n.pipe.registry.entries, e.needsBackfill = false →
    ∀ ev ∈ e.analysis.wanted (eventsOf site.archive), ev ∈ e.handed

/-- Whether the files of the pass are settled and the pass has not ended. -/
def Underway (n : Node σ ε) : Prop :=
  match n.phase with
  | .reading _ _ | .group _ _ _ _ | .advancing => True
  | _ => False

/-- An analysis of the pass is reset when the pass has still to hand over all that it wants. -/
def ResetsUnread (site : Site σ ε) (n : Node σ ε) : LiveAct → Prop
  | .reset name => n.Underway → ∀ i e, n.pipe.registry.entries[i]? = some e → i ∈ n.pipe.stage →
      e.name ∈ n.pipe.registry.doomed name →
        ∀ ev ∈ e.analysis.wanted (eventsOf site.archive), ev ∈ n.due
  | _ => True

/-! ## What is owed to an analysis -/

/-- The files of the current group and those of the groups to come. -/
def openFiles (n : Node σ ε) : List ArchiveFile :=
  match n.phase with
  | .reading gs _ => gs.flatten
  | .group files _ gs _ => files ++ gs.flatten
  | _ => []

/-- The files of the groups to come. -/
def laterFiles (n : Node σ ε) : List ArchiveFile :=
  match n.phase with
  | .reading gs _ | .group _ _ gs _ => gs.flatten
  | _ => []

/-- The events of the current group that were not handed over yet. -/
def left (n : Node σ ε) : Multiset NostrEvent :=
  match n.phase with
  | .group _ left _ _ => left
  | _ => 0

/-- What the entry wants of the archive it was handed, or it is in `left`, or in one of `files` that
is not recorded for it. -/
def Owes (site : Site σ ε) (left : Multiset NostrEvent) (files : List ArchiveFile)
    (e : Entry σ ε) : Prop :=
  ∀ ev ∈ e.analysis.wanted (eventsOf site.archive), ev ∈ e.handed ∨ ev ∈ left ∨
    ∃ f ∈ files, ev ∈ f.events ∧ f.key ∉ e.progress.rebuild.completed

structure Owed (site : Site σ ε) (n : Node σ ε) (i : ℕ) (e : Entry σ ε) : Prop where
  done : e.needsBackfill = false → ∀ ev ∈ e.analysis.wanted (eventsOf site.archive), ev ∈ e.handed
  archive : Owes site 0 site.archive e
  pass : e.needsBackfill = true → i ∈ n.pipe.stage → n.Underway →
    Owes site n.left n.laterFiles e

structure Settling (site : Site σ ε) (n : Node σ ε) : Prop where
  live : n.pipe.live = true
  opened : n.openFiles.Sublist site.archive
  entries : ∀ i e, n.pipe.registry.entries[i]? = some e → Owed site n i e

theorem Settling.backfilledHasAll (h : Settling site n) : BackfilledHasAll site n := by
  intro e he hdone
  obtain ⟨i, hi⟩ := List.mem_iff_getElem?.mp he
  exact (h.entries i e hi).done hdone

theorem mem_eventsOf {ev : NostrEvent} {files : List ArchiveFile} :
    ev ∈ eventsOf files ↔ ∃ f ∈ files, ev ∈ f.events := by
  rw [eventsOf, Multiset.mem_coe, List.mem_flatMap]

/-- What a pass has still to hand over is in the current group or in a later file. -/
theorem mem_due {ev : NostrEvent} (h : ev ∈ n.due) :
    ev ∈ n.left ∨ ∃ f ∈ n.laterFiles, ev ∈ f.events := by
  cases hphase : n.phase with
  | reading gs filesDone =>
    rw [due, hphase] at h
    rw [laterFiles, hphase]
    exact Or.inr (mem_eventsOf.mp h)
  | group files events gs filesDone =>
    rw [due, hphase] at h
    rw [left, laterFiles, hphase]
    exact (Multiset.mem_add.mp h).imp id mem_eventsOf.mp
  | idle | passStart | advancing | finalizing =>
    rw [due, hphase] at h
    exact absurd h (Multiset.notMem_zero ev)

/-- Without a recorded file everything is still in the archive. -/
theorem owes_archive {e : Entry σ ε} (h : e.progress.rebuild.completed = []) :
    Owes site 0 site.archive e := by
  intro ev hev
  obtain ⟨f, hf, hin⟩ := mem_eventsOf.mp (Multiset.mem_filter.mp hev).1
  exact Or.inr (Or.inr ⟨f, hf, hin, by rw [h]; exact List.not_mem_nil⟩)

/-- With nothing left of a group, what is owed is in a later file. -/
theorem Owes.later {files : List ArchiveFile} {e : Entry σ ε} (h : Owes site 0 files e)
    {ev : NostrEvent} (hev : ev ∈ e.analysis.wanted (eventsOf site.archive)) :
    ev ∈ e.handed ∨ ∃ f ∈ files, ev ∈ f.events ∧ f.key ∉ e.progress.rebuild.completed := by
  rcases h ev hev with hhanded | hzero | hlater
  · exact Or.inl hhanded
  · exact absurd hzero (Multiset.notMem_zero ev)
  · exact Or.inr hlater

/-- An entry that was handed more, with no other file recorded, is owed no more. -/
theorem Owes.moved {s : Multiset NostrEvent} {left : Multiset NostrEvent}
    {files : List ArchiveFile} {e e' : Entry σ ε} (h : Owes site left files e)
    (hm : Entry.Moved s e e') : Owes site left files e' := by
  intro ev hev
  rw [hm.analysis] at hev
  rw [hm.handed, hm.rebuild]
  rcases h ev hev with hhanded | hrest
  · exact Or.inl (Multiset.mem_add.mpr (Or.inl hhanded))
  · exact Or.inr hrest

/-! ## Steps -/

/-- Events were handed over, or none, and in a pass what is owed is still to come. -/
theorem Settling.moved (h : Settling site n)
    (hentries : Registry.Pointwise (fun _ e e' => ∃ s, Entry.Moved s e e') n.pipe.registry
      n'.pipe.registry)
    (hlive : n'.pipe.live = true) (hopened : n'.openFiles.Sublist site.archive)
    (hpass : ∀ i e e' s, n.pipe.registry.entries[i]? = some e → Owed site n i e →
      n'.pipe.registry.entries[i]? = some e' → Entry.Moved s e e' →
      e'.needsBackfill = true → i ∈ n'.pipe.stage → n'.Underway →
        Owes site n'.left n'.laterFiles e') : Settling site n' := by
  refine ⟨hlive, hopened, ?_⟩
  intro i e' he'
  obtain ⟨e, he, s, hm⟩ := hentries.back he'
  have ho := h.entries i e he
  refine ⟨?_, ho.archive.moved hm, hpass i e e' s he ho he' hm⟩
  intro hdone ev hev
  rw [hm.needsBackfill] at hdone
  rw [hm.analysis] at hev
  rw [hm.handed]
  exact Multiset.mem_add.mpr (Or.inl (ho.done hdone ev hev))

/-- Nothing changed but the phase. -/
theorem Settling.phase (h : Settling site n) (phase : Phase) (cancel : Bool)
    (hopened : ({ n with phase := phase, cancel := cancel } : Node σ ε).openFiles.Sublist
      site.archive)
    (hpass : ∀ i e, n.pipe.registry.entries[i]? = some e → Owed site n i e →
      e.needsBackfill = true → i ∈ n.pipe.stage →
      ({ n with phase := phase, cancel := cancel } : Node σ ε).Underway →
        Owes site ({ n with phase := phase, cancel := cancel } : Node σ ε).left
          ({ n with phase := phase, cancel := cancel } : Node σ ε).laterFiles e) :
    Settling site { n with phase := phase, cancel := cancel } := by
  refine ⟨h.live, hopened, ?_⟩
  intro i e he
  have ho := h.entries i e he
  exact ⟨ho.done, ho.archive, hpass i e he ho⟩

/-- Out of the pass nothing has to come. -/
theorem Settling.leave (h : Settling site n) (phase : Phase) (cancel : Bool)
    (hphase : phase = .idle ∨ phase = .passStart ∨ phase = .finalizing) :
    Settling site { n with phase := phase, cancel := cancel } := by
  apply h.phase
  · rcases hphase with rfl | rfl | rfl <;> exact List.nil_sublist _
  · intro i e he ho hpend hi hunder
    rcases hphase with rfl | rfl | rfl <;> exact absurd hunder id

theorem Settling.start (h : Settling site n) {opts : ReplayOptions}
    (hstep : step site n (.start opts) = some n') : Settling site n' := by
  obtain ⟨-, rfl⟩ := step_start hstep
  have hplanned : (n.planned opts).registry = n.pipe.registry ∧
      (n.planned opts).live = n.pipe.live := by
    obtain ⟨stages, pass, heq⟩ := n.planned_eq opts
    rw [heq]
    exact ⟨rfl, rfl⟩
  have hentries : Registry.Pointwise (fun _ e e' => ∃ s, Entry.Moved s e e') n.pipe.registry
      (n.started opts).pipe.registry := by
    show Registry.Pointwise _ n.pipe.registry (n.planned opts).registry
    rw [hplanned.1]
    exact Registry.pointwise_refl (fun _ e => ⟨0, Entry.Moved.refl e⟩) _
  exact h.moved hentries (hplanned.2.trans h.live) (List.nil_sublist _)
    fun _ _ _ _ _ _ _ _ _ _ hunder => absurd hunder id

theorem Settling.pass (h : Settling site n) (hstep : step site n .pass = some n') :
    Settling site n' := by
  obtain ⟨hphase, ⟨-, rfl⟩ | ⟨-, hskip, rfl⟩ | ⟨-, -, rfl⟩⟩ := step_pass hstep
  · exact h.leave .finalizing n.cancel (Or.inr (Or.inr rfl))
  · -- those still to be derived in this pass read nothing
    apply h.phase .advancing n.cancel (List.nil_sublist _)
    intro i e he _ hpend hi _
    have hindexes : n.pipe.indexesThisPass = true := by
      rw [Pipeline.indexesThisPass, h.live, Bool.true_or]
    have hkinds := kinds_nil_of_skips hskip hindexes hi he hpend
    intro ev hev
    rw [DynAnalysis.wanted_of_kinds_nil hkinds] at hev
    exact absurd hev (Multiset.notMem_zero ev)
  · have hlater : ({ n with phase := .reading (n.groups site) 0, cancel := n.cancel } :
        Node σ ε).laterFiles = n.toRead site := flatten_groups site n
    apply h.phase (.reading (n.groups site) 0) n.cancel
    · show (n.groups site).flatten.Sublist site.archive
      rw [flatten_groups, toRead_eq_filter]
      exact List.filter_sublist
    · intro i e he ho hpend hi _ ev hev
      rw [hlater]
      rcases ho.archive.later hev with hhanded | ⟨f, hf, hin, hkey⟩
      · exact Or.inl hhanded
      · -- a file that is not recorded for the entry is read
        have hneeded : n.pipe.passFileDone f.key = false := by
          rw [← Bool.not_eq_true]
          intro hdone
          rw [Pipeline.passFileDone, Registry.fileDoneFor, List.all_eq_true] at hdone
          have hone := hdone i hi
          rw [he, Option.all_some, hpend, Bool.not_true, Bool.false_or, Bool.not_eq_true',
            ← Bool.not_eq_true, Rebuild.needs_iff, not_not] at hone
          exact hkey hone
        refine Or.inr (Or.inr ⟨f, ?_, hin, hkey⟩)
        rw [toRead_eq_filter]
        exact List.mem_filter.mpr ⟨hf, by rw [hneeded]; simp⟩

theorem Settling.nextGroup (h : Settling site n) (hstep : step site n .nextGroup = some n') :
    Settling site n' := by
  obtain ⟨groups, filesDone, hphase, hcases⟩ := step_nextGroup hstep
  have hunder : n.Underway := by
    rw [Underway, hphase]
    trivial
  have hopened := h.opened
  rw [openFiles, hphase] at hopened
  rcases hcases with ⟨rfl, -⟩ | ⟨-, rfl, rfl⟩ | ⟨-, g, gs, rfl, rfl⟩
  · exact h.leave .finalizing true (Or.inr (Or.inr rfl))
  · apply h.phase .advancing n.cancel (List.nil_sublist _)
    intro i e he ho hpend hi _
    have hp := ho.pass hpend hi hunder
    rw [left, laterFiles, hphase] at hp
    exact hp
  · apply h.phase (.group g (eventsOf g) gs filesDone) n.cancel
    · simp only [List.flatten_cons] at hopened
      exact hopened
    · intro i e he ho hpend hi _ ev hev
      have hp := ho.pass hpend hi hunder
      rw [left, laterFiles, hphase] at hp
      rcases hp.later hev with hhanded | ⟨f, hf, hin, hkey⟩
      · exact Or.inl hhanded
      · -- its file is one of the group, or comes later
        rcases List.mem_append.mp hf with hnow | hlater
        · exact Or.inr (Or.inl (mem_eventsOf.mpr ⟨f, hnow, hin⟩))
        · exact Or.inr (Or.inr ⟨f, hlater, hin, hkey⟩)

theorem Settling.fold (h : Settling site n) {ev : NostrEvent} {clk : Clock}
    (hstep : step site n (.fold ev clk) = some n') : Settling site n' := by
  obtain ⟨files, left, gs, filesDone, hphase, -, hev, rfl⟩ := step_fold hstep
  have hunder : n.Underway := by
    rw [Underway, hphase]
    trivial
  have hopened := h.opened
  rw [openFiles, hphase] at hopened
  obtain ⟨hentries, hlive, hstages, hpass⟩ := Pipeline.foldOnly_live h.live ev clk
  refine h.moved (hentries.mono fun _ e e' hm => ⟨_, hm⟩) hlive hopened ?_
  intro i e e' s he ho he' _ hpend hi _ ev' hev'
  have hm := hentries.2 i e e' he he'
  have hstage : (n.pipe.foldOnly ev clk).stage = n.pipe.stage := Pipeline.stage_congr hpass hstages
  rw [hm.needsBackfill] at hpend
  rw [hm.analysis] at hev'
  have hp := ho.pass hpend (by rw [← hstage]; exact hi) hunder ev' hev'
  rw [Node.left, laterFiles, hphase] at hp
  rw [hm.handed, hm.rebuild, Multiset.mem_add]
  rcases hp with hhanded | hleft | hlater
  · exact Or.inl (Or.inl hhanded)
  · by_cases heq : ev' = ev
    · -- this is the one that is handed over
      subst heq
      have htakes : e.takes .backfill ev' = true := by
        rw [Entry.takes_of_needsBackfill hpend]
        exact (Multiset.mem_filter.mp hev').2
      rw [if_pos htakes]
      exact Or.inl (Or.inr (Multiset.mem_singleton_self ev'))
    · exact Or.inr (Or.inl ((Multiset.mem_erase_of_ne heq).mpr hleft))
  · exact Or.inr (Or.inr hlater)

/-- A live event is handed over next to those of the pass. -/
theorem Settling.process (h : Settling site n) (ev : NostrEvent) (clk : Clock) :
    Settling site { n with pipe := n.pipe.foldOnly ev clk } := by
  obtain ⟨hentries, hlive, hstages, hpass⟩ := Pipeline.foldOnly_live h.live ev clk
  refine h.moved (hentries.mono fun _ e e' hm => ⟨_, hm⟩) hlive h.opened ?_
  intro i e e' s he ho he' hm hpend hi hunder
  have hstage : (n.pipe.foldOnly ev clk).stage = n.pipe.stage := Pipeline.stage_congr hpass hstages
  rw [hm.needsBackfill] at hpend
  exact (ho.pass hpend (by rw [← hstage]; exact hi) hunder).moved hm

theorem Settling.endGroup (h : Settling site n) (hkeys : (site.archive.map ArchiveFile.key).Nodup)
    {clk : Clock} (hstep : step site n (.endGroup clk) = some n') : Settling site n' := by
  obtain ⟨files, left, gs, filesDone, hphase, hcases⟩ := step_endGroup hstep
  have hunder : n.Underway := by
    rw [Underway, hphase]
    trivial
  have hopened : (files ++ gs.flatten).Sublist site.archive := by
    have hall := h.opened
    rw [openFiles, hphase] at hall
    exact hall
  have hlater : gs.flatten.Sublist site.archive :=
    (List.sublist_append_right files gs.flatten).trans hopened
  rcases hcases with ⟨-, rfl⟩ | ⟨-, rfl, -, rfl⟩ | ⟨-, rfl, -, rfl⟩
  · exact h.leave .finalizing n.cancel (Or.inr (Or.inr rfl))
  · -- an indexing pass records nothing
    apply h.phase (.reading gs filesDone) n.cancel hlater
    intro i e he ho hpend hi _
    have hp := ho.pass hpend hi hunder
    rw [Node.left, laterFiles, hphase] at hp
    exact hp
  · obtain ⟨hentries, hlive, hstages, hpass, -⟩ :=
      n.pipe.finishPassFiles_spec (files.map ArchiveFile.key) clk
    have hstage : (n.pipe.finishPassFiles (files.map ArchiveFile.key) clk).stage = n.pipe.stage :=
      Pipeline.stage_congr hpass hstages
    -- a file that is still to come is not one of those that were finished
    have hother : ∀ f ∈ gs.flatten, f.key ∉ files.map ArchiveFile.key := by
      intro f hf hmem
      have hnodup := (hopened.map ArchiveFile.key).nodup hkeys
      rw [List.map_append, List.nodup_append] at hnodup
      exact hnodup.2.2 f.key hmem f.key (List.mem_map_of_mem hf) rfl
    refine ⟨hlive.trans h.live, hlater, ?_⟩
    intro i e' he'
    obtain ⟨e, he, hrec⟩ := hentries.back he'
    have ho := h.entries i e he
    -- what the entry wants is in its log, or in a later file
    have howed : i ∈ n.pipe.stage → e.needsBackfill = true → Owes site 0 gs.flatten e' := by
      intro hi hpend ev hev
      rw [hrec.analysis] at hev
      have hp := ho.pass hpend hi hunder
      rw [Node.left, laterFiles, hphase] at hp
      rw [hrec.handed]
      rcases hp.later hev with hhanded | ⟨f, hf, hin, hkey⟩
      · exact Or.inl hhanded
      · refine Or.inr (Or.inr ⟨f, hf, hin, ?_⟩)
        rw [hrec.completed]
        rintro (hdone | ⟨-, -, hmem⟩)
        · exact hkey hdone
        · exact hother f hf hmem
    refine ⟨?_, ?_, ?_⟩
    · intro hdone
      rw [hrec.analysis, hrec.handed]
      apply ho.done
      rw [← hrec.needsBackfill]
      exact hdone
    · by_cases hmine : i ∈ n.pipe.stage ∧ e.needsBackfill = true
      · intro ev hev
        rcases (howed hmine.1 hmine.2).later hev with hhanded | ⟨f, hf, hrest⟩
        · exact Or.inl hhanded
        · exact Or.inr (Or.inr ⟨f, hlater.subset hf, hrest⟩)
      · -- nothing was recorded for the others
        intro ev hev
        rw [hrec.analysis] at hev
        rw [hrec.handed]
        rcases ho.archive.later hev with hhanded | ⟨f, hf, hin, hkey⟩
        · exact Or.inl hhanded
        · refine Or.inr (Or.inr ⟨f, hf, hin, ?_⟩)
          rw [hrec.completed]
          rintro (hdone | ⟨hi, hpend, -⟩)
          · exact hkey hdone
          · exact hmine ⟨hi, hpend⟩
    · intro hpend hi _
      rw [hrec.needsBackfill] at hpend
      apply howed _ hpend
      rw [← hstage]
      exact hi

/-- The pass is over: whatever its analyses want was handed to them. -/
theorem Settling.advance (h : Settling site n) {clk : Clock}
    (hstep : step site n (.advance clk) = some n') : Settling site n' := by
  obtain ⟨hphase, rfl⟩ := step_advance hstep
  obtain ⟨hentries, hlive, -, -, -, -⟩ := n.pipe.advancePass_spec clk
  have hunder : n.Underway := by
    rw [Underway, hphase]
    trivial
  -- whether another pass follows or not, this one is over
  have hafter : ({ n with
      pipe := (n.pipe.advancePass clk).1
      phase := if (n.pipe.advancePass clk).2 then .passStart else .finalizing } :
        Node σ ε).openFiles = [] ∧ ¬ ({ n with
      pipe := (n.pipe.advancePass clk).1
      phase := if (n.pipe.advancePass clk).2 then .passStart else .finalizing } :
        Node σ ε).Underway := by
    cases (n.pipe.advancePass clk).2 with
    | true => exact ⟨rfl, id⟩
    | false => exact ⟨rfl, id⟩
  refine ⟨hlive.trans h.live, ?_, ?_⟩
  · rw [hafter.1]
    exact List.nil_sublist _
  · intro i e' he'
    obtain ⟨e, he, hadv⟩ := hentries.back he'
    have ho := h.entries i e he
    refine ⟨?_, ?_, fun _ _ hunder' => absurd hunder' hafter.2⟩
    · intro hdone ev hev
      rw [hadv.analysis] at hev
      rw [hadv.handed]
      by_cases hmine : i ∈ n.pipe.stage ∧ e.needsBackfill = true
      · -- no event of a group is left, and no group
        have hp := ho.pass hmine.2 hmine.1 hunder
        rw [left, laterFiles, hphase] at hp
        rcases hp.later hev with hhanded | ⟨f, hf, -⟩
        · exact hhanded
        · exact absurd hf List.not_mem_nil
      · apply ho.done _ ev hev
        by_cases hi : i ∈ n.pipe.stage
        · simpa [hi] using hmine
        · rw [← hdone, Entry.needsBackfill, Entry.needsBackfill, (hadv.other hi).1]
    · by_cases hi : i ∈ n.pipe.stage
      · -- its records are taken down, and the whole archive is owed again
        exact owes_archive (n.pipe.advancePass_cleared clk hi he')
      · intro ev hev
        rw [hadv.analysis] at hev
        rw [hadv.handed, (hadv.other hi).2]
        exact ho.archive ev hev

theorem Settling.finalize (h : Settling site n) {clk : Clock}
    (hstep : step site n (.finalize clk) = some n') : Settling site n' := by
  obtain ⟨-, rfl⟩ := step_finalize hstep
  have hquiet : Pipeline.Quiet n.pipe (n.pipe.refreshInner true clk) :=
    n.pipe.refreshInner_quiet true clk
  refine h.moved (hquiet.still.mono fun _ _ _ hm => ⟨0, hm⟩) rfl ?_ ?_
  · exact List.nil_sublist _
  · exact fun _ _ _ _ _ _ _ _ _ _ hunder => absurd hunder id

/-- What was read for an analysis that is reset is read no more in this pass. -/
theorem Settling.reset (h : Settling site n) {name : String} (hok : ResetsUnread site n (.reset name))
    (hstep : liveStep site n (.reset name) = some n') : Settling site n' := by
  obtain ⟨r, hr, rfl⟩ := Option.map_eq_some_iff.mp hstep
  obtain ⟨hentries, hlive, hstage⟩ := Pipeline.resetAnalysis_spec hr
  refine ⟨hlive.trans h.live, h.opened, ?_⟩
  intro i e' he'
  obtain ⟨e, he, hdis⟩ := hentries.back he'
  have ho := h.entries i e he
  by_cases hdoomed : e.name ∈ n.pipe.registry.doomed name
  · obtain ⟨hprogress, hlog⟩ := hdis.gone hdoomed
    have hcompleted : e'.progress.rebuild.completed = [] := by rw [hprogress]; rfl
    refine ⟨?_, owes_archive hcompleted, ?_⟩
    · intro hdone
      rw [Entry.needsBackfill, hprogress] at hdone
      cases hdone
    · intro _ hi hunder ev hev
      rw [hdis.analysis] at hev
      rw [hstage] at hi
      rw [hcompleted]
      -- all it wants is still to come
      rcases mem_due (hok hunder i e he hi hdoomed ev hev) with hleft | ⟨f, hf, hin⟩
      · exact Or.inr (Or.inl hleft)
      · exact Or.inr (Or.inr ⟨f, hf, hin, List.not_mem_nil⟩)
  · obtain ⟨hprogress, hlog⟩ := hdis.kept hdoomed
    have hhanded : e'.handed = e.handed := by rw [Entry.handed, Entry.handed, hlog]
    have hneeds : e'.needsBackfill = e.needsBackfill := by
      rw [Entry.needsBackfill, Entry.needsBackfill, hprogress]
    refine ⟨?_, ?_, ?_⟩
    · rw [hneeds, hdis.analysis, hhanded]
      exact ho.done
    · intro ev hev
      rw [hdis.analysis] at hev
      rw [hhanded, hprogress]
      exact ho.archive ev hev
    · intro hpend hi hunder ev hev
      rw [hneeds] at hpend
      rw [hstage] at hi
      rw [hdis.analysis] at hev
      rw [hhanded, hprogress]
      exact ho.pass hpend hi hunder ev hev

theorem Settling.liveStep (h : Settling site n) (hkeys : (site.archive.map ArchiveFile.key).Nodup)
    {a : LiveAct} (hok : ResetsUnread site n a) (hstep : liveStep site n a = some n') :
    Settling site n' := by
  cases a with
  | process ev clk =>
    rw [← Option.some.inj hstep]
    exact h.process ev clk
  | reset name => exact h.reset hok hstep
  | replay a =>
    rw [Node.liveStep] at hstep
    split at hstep
    case isFalse => cases hstep
    case isTrue hingest =>
      cases a with
      | start opts => exact h.start hstep
      | pass => exact h.pass hstep
      | nextGroup => exact h.nextGroup hstep
      | fold ev clk => exact h.fold hstep
      | endGroup clk => exact h.endGroup hkeys hstep
      | advance clk => exact h.advance hstep
      | finalize clk => exact h.finalize hstep
      | cancel =>
        rw [← Option.some.inj hstep]
        exact h.phase n.phase true h.opened fun i e _ ho hpend hi hunder => ho.pass hpend hi hunder
      | finish | restart | reset | resetAll => cases hingest

/-- A new process has read nothing. -/
theorem settling_boot {ext : ε} {persistent : Bool} {clk : Clock}
    (h : bootLive site ext persistent clk = some n) : Settling site n := by
  obtain ⟨b, hb, rfl⟩ := Option.map_eq_some_iff.mp h
  rw [boot] at hb
  split at hb
  case h_1 => cases hb
  case h_2 p hp =>
    rw [Option.some.injEq] at hb
    subst hb
    obtain ⟨me, hregistry, -, hquiet⟩ := Pipeline.new_quiet hp
    have hnew : ∀ e ∈ me.registry.entries, e.progress = Progress.fresh e.analysis.epoch := by
      intro e he
      rw [hregistry] at he
      cases persistent with
      | false =>
        obtain ⟨a, -, rfl⟩ := List.mem_map.mp he
        rfl
      | true =>
        -- nothing is found for any analysis
        obtain ⟨e₁, he₁, rfl⟩ := List.mem_map.mp he
        obtain ⟨e₂, -, rfl⟩ := List.mem_map.mp he₁
        rfl
    have hstill : Registry.Still me.registry (p.goLive clk).registry :=
      hquiet.still.trans (p.refreshInner_quiet true clk).still
    refine ⟨rfl, List.nil_sublist _, ?_⟩
    intro i e' he'
    obtain ⟨e, he, hm⟩ := hstill.back he'
    have hfresh := hnew e (List.mem_of_getElem? he)
    refine ⟨?_, owes_archive ?_, fun _ _ hunder => absurd hunder id⟩
    · intro hdone
      rw [hm.needsBackfill, Entry.needsBackfill, hfresh] at hdone
      cases hdone
    · rw [hm.rebuild, hfresh]
      rfl

/-- **Resets and replays.** As long as no analysis of the pass is reset when part of what it wants
is behind the pass, an analysis that is backfilled was handed all it wants of the archive since it
was last reset. -/
theorem backfilled_has_all {ext : ε} {persistent : Bool} {clk : Clock} {n₀ u : Node σ ε}
    (hkeys : (site.archive.map ArchiveFile.key).Nodup)
    (hboot : bootLive site ext persistent clk = some n₀) {as : List LiveAct}
    (hok : Along (liveStep site) (ResetsUnread site) n₀ as)
    (hu : Visited (liveStep site) n₀ as u) : BackfilledHasAll site u :=
  (visited_invariant (fun _ _ _ h hok hstep => Settling.liveStep h hkeys hok hstep)
    (settling_boot hboot) hok hu).backfilledHasAll

/-! ## A reset in a pass -/

section Runs

/-- An analysis that counts the events it is handed. -/
private def counting : DynAnalysis ℕ Unit :=
  { name := "counting", epoch := 0, deps := [], refreshInterval := none, kinds := none
    default := 0, attach := fun _ n => n, observe := fun _ _ _ n => (n + 1, (), true)
    refresh := fun _ n => n, contribute := fun _ w => w, onReset := fun _ _ => ()
    restored := fun n => n }

private def dumped : NostrEvent :=
  { id := "5c83da77af1dec6d7289834998ad7aafbd9e2191396d75ec3cc27f5a77226f36"
    pubkey := "f7234bd4c1394dda46d09f35bd384dd30cc552ad5541990f98844fb06676e9ca"
    createdAt := 1700000000, kind := 1, tags := [], content := "", sig := "" }

/-- One file with one event. -/
private def oneDump : Site ℕ Unit :=
  { cfg := { wotRefreshEvery := 1000, minRefreshInterval := 0, persistInterval := 0 }
    analyses := [counting]
    archive := [{ key := "dump:1", len := 1, events := [dumped] }] }

private def midnight : Clock := { wall := 1700200000, mono := 0 }

/-- The replay of the one file, with these steps before and after its event is folded. -/
private def aroundTheFold (before after : List LiveAct) : List LiveAct :=
  [.replay (.start { parallelism := 1, index := false, stopAfterFiles := none }), .replay .pass] ++
    before ++ [.replay .nextGroup, .replay (.fold dumped midnight)] ++ after ++
    [.replay (.endGroup midnight), .replay .nextGroup, .replay (.advance midnight)]

/-- Whether the reset comes before anything was read. -/
private def resetsFirstB (n : Node ℕ Unit) : LiveAct → Bool
  | .reset _ => decide (n.due = eventsOf oneDump.archive)
  | _ => true

private theorem resetsUnread_of_resetsFirstB (n : Node ℕ Unit) (a : LiveAct)
    (h : resetsFirstB n a = true) : ResetsUnread oneDump n a := by
  cases a with
  | reset name =>
    intro _ i e _ _ _ ev hev
    rw [of_decide_eq_true h]
    exact (Multiset.mem_filter.mp hev).1
  | _ => trivial

/-- The analysis is reset before its pass reads, and has the event when it is backfilled. -/
theorem reset_before_reading_has_all :
    ((bootLive oneDump () false midnight).bind fun n₀ =>
        run (liveStep oneDump) n₀ (aroundTheFold [.reset "counting"] [])).any
        (fun u => u.pipe.registry.entries.all fun e =>
          decide (e.needsBackfill = false ∧ e.handed = {dumped})) = true ∧
      ∀ n₀, bootLive oneDump () false midnight = some n₀ → ∀ u,
        Visited (liveStep oneDump) n₀ (aroundTheFold [.reset "counting"] []) u →
        BackfilledHasAll oneDump u := by
  refine ⟨by decide +kernel, ?_⟩
  intro n₀ hboot u hu
  refine backfilled_has_all (by decide) hboot ?_ hu
  have hfirst : (bootLive oneDump () false midnight).all (fun n₀ =>
      alongB (liveStep oneDump) resetsFirstB n₀ (aroundTheFold [.reset "counting"] [])) = true := by
    decide +kernel
  rw [hboot, Option.all_some] at hfirst
  exact along_of_alongB resetsUnread_of_resetsFirstB hfirst

/-- Reset after its event was folded, the analysis is backfilled with nothing in it. -/
theorem reset_in_a_pass_is_swallowed :
    ¬ ∀ n₀, bootLive oneDump () false midnight = some n₀ → ∀ u,
      Visited (liveStep oneDump) n₀ (aroundTheFold [] [.reset "counting"]) u →
      BackfilledHasAll oneDump u := by
  intro h
  have hrun : ((bootLive oneDump () false midnight).bind fun n₀ =>
      run (liveStep oneDump) n₀ (aroundTheFold [] [.reset "counting"])).any (fun u =>
        u.pipe.registry.entries.any fun e =>
          decide (e.needsBackfill = false ∧ e.handed = 0 ∧
            e.analysis.wanted (eventsOf oneDump.archive) = {dumped})) = true := by
    decide +kernel
  obtain ⟨u, hu, hswallowed⟩ := (Option.any_eq_true _ _).mp hrun
  obtain ⟨n₀, hboot, hrun'⟩ := Option.bind_eq_some_iff.mp hu
  obtain ⟨e, he, hlost⟩ := List.any_eq_true.mp hswallowed
  obtain ⟨hdone, hhanded, hwanted⟩ := of_decide_eq_true hlost
  have hhas := h n₀ hboot u ⟨_, List.prefix_rfl, hrun'⟩ e he hdone dumped
    (by rw [hwanted]; exact Multiset.mem_singleton_self dumped)
  rw [hhanded] at hhas
  exact absurd hhas (Multiset.notMem_zero dumped)

end Runs

end Node

end NostrSearch.Indexer
