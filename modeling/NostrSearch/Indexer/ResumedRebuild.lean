import NostrSearch.Indexer.RebuildInvariant

/-!
# A rebuild that is interrupted and resumed

Ingests are started, cancelled, and resumed on what was kept, in the same process or in another
one on its state directory. `Rebuild.completed` says which files an analysis is done with. A
pass reads a file as soon as one of its analyses is not done with it, and folds it into all of
them; a pass that indexes reads every file and records none; and what was folded of a group of
files when the cancel flag came stays in the state, recorded nowhere.

`resumed_once` is about runs of one-pass ingests from an empty state directory. If at the start of
each ingest the analyses still to be derived hold the files they are done with and nothing else,
and the ingest reads none of those again (`ReadyToResume`), then every analysis becomes derived
with each event of each file folded once.
-/

namespace NostrSearch.Indexer

open NostrSearch.Core NostrSearch.Lib NostrSearch.Stats

namespace Node

variable {σ ε : Type} {site : Site σ ε} {n n' : Node σ ε}

/-! ## What a resumable rebuild should do -/

/-- An analysis becomes derived in the state that each event of each file, folded once, leads
to. -/
def DerivedOnce (site : Site σ ε) (n : Node σ ε) : ReplayAct → Prop
  | .advance clk => ∀ (i : ℕ) (e e' : Entry σ ε), n.pipe.registry.entries[i]? = some e →
      e.needsBackfill = true → (n.pipe.advancePass clk).1.registry.entries[i]? = some e' →
      e'.needsBackfill = false →
        e'.handed = e'.analysis.wanted (eventsOf site.archive) ∧ e'.Derived
  | _ => True

/-- No file is read again for an analysis that has recorded it. -/
def NotReread (n : Node σ ε) : ReplayAct → Prop
  | .fold _ _ => ∀ files left gs filesDone, n.phase = .group files left gs filesDone →
      ∀ e ∈ n.pipe.registry.entries, e.needsBackfill = true → ∀ f ∈ files,
        f.key ∈ e.progress.rebuild.completed → e.analysis.wanted (Multiset.ofList f.events) = 0
  | _ => True

/-- No analysis still to be derived was handed an event more often than the files have it. -/
def NeverTwice (site : Site σ ε) (n : Node σ ε) : Prop :=
  ∀ e ∈ n.pipe.registry.entries, e.needsBackfill = true →
    e.handed ≤ e.analysis.wanted (eventsOf site.archive)

/-! ## The run -/

/-- With the pass over there is nothing outstanding. -/
theorem Kept.derivedOnce (h : Kept site n) {a : ReplayAct} (hstep : Node.step site n a = some n') :
    DerivedOnce site n a := by
  cases a with
  | advance clk =>
    obtain ⟨hphase, -⟩ := step_advance hstep
    have hreading : n.Reading := by
      rw [Reading, hphase]
      trivial
    have houtstanding : n.outstanding site = 0 := by rw [outstanding, hphase]
    obtain ⟨hentries, -⟩ := n.pipe.advancePass_spec clk
    intro i e e' he hpend he' _
    have hm := hentries.2 i e e' he he'
    have hr := ((h.ingesting hreading).entries e (List.mem_of_getElem? he) hpend).conserved
    rw [houtstanding, DynAnalysis.wanted_zero, add_zero] at hr
    refine ⟨?_, hm.derived (h.bounded e (List.mem_of_getElem? he)).derived⟩
    rw [hm.handed, hm.analysis, hr]
  | _ => trivial

theorem Kept.notReread (h : Kept site n) (a : ReplayAct) : NotReread n a := by
  cases a with
  | fold ev clk =>
    intro files left gs filesDone hphase e he hpend f hf hdone
    have hreading : n.Reading := by
      rw [Reading, hphase]
      trivial
    refine ((h.ingesting hreading).entries e he hpend).unread f ?_ hdone
    rw [ahead, hphase]
    exact List.mem_append_left _ hf
  | _ => trivial

/-- **A resumed rebuild counts each event once.** In a run of one-pass ingests, resets,
cancellations, stops and restarts that comes up with nothing saved, and in which every ingest
starts ready: every analysis becomes derived with each event of each file in its state, once; no
file is read again for an analysis that has recorded it; and no analysis still to be derived has
an event more often than the files do. -/
theorem resumed_once {ext : ε} {store : Option (StatStore σ)} {clk : Clock} {n₀ : Node σ ε}
    {as : List ReplayAct} (hnames : (site.analyses.map DynAnalysis.name).Nodup)
    (hkeys : (site.archive.map ArchiveFile.key).Nodup)
    (hstore : ∀ st, store = some st → ∀ name, st name = none)
    (hboot : boot site ext store clk = some n₀) (hone : Along (Node.step site) OnePass n₀ as)
    (hready : Along (Node.step site) (ReadyToResume site) n₀ as) :
    Along (Node.step site) (fun n a => DerivedOnce site n a ∧ NotReread n a) n₀ as ∧
      ∀ n, Visited (Node.step site) n₀ as n → NeverTwice site n := by
  have hkept : Kept site n₀ := by
    refine kept_boot ?_ hnames hboot
    intro st hst a _ sv hsv
    rw [hstore st hst] at hsv
    cases hsv
  have hkeep : ∀ n a n', Kept site n → OnePass n a ∧ ReadyToResume site n a →
      Node.step site n a = some n' → Kept site n' :=
    fun n a n' h hn hstep => h.step hnames hkeys hn.1 hn.2 hstep
  have hsteps := hone.and hready
  constructor
  · refine Along.imp (p := fun _ => True) (fun n a n' h _ => hkeep n a n' h) ?_ hkept
      (fun _ _ => trivial) hsteps
    intro n a n' h _ _ hstep
    exact ⟨h.derivedOnce hstep, h.notReread a⟩
  · intro n hn e he hpend
    have h : Kept site n := visited_invariant hkeep hkept hsteps hn
    exact (h.bounded e he).le hpend

end Node

/-! ## A file that is cut off -/

section Runs

open Node

private def countAll : DynAnalysis ℕ Unit :=
  { name := "count", epoch := 0, deps := [], refreshInterval := none, kinds := none
    default := 0, attach := fun _ n => n, observe := fun _ _ _ n => (n + 1, (), true)
    refresh := fun _ n => n, contribute := fun _ w => w, onReset := fun _ _ => ()
    restored := fun n => n }

private def postAt (createdAt : ℕ) : NostrEvent :=
  { id := "5c83da77af1dec6d7289834998ad7aafbd9e2191396d75ec3cc27f5a77226f36"
    pubkey := "f7234bd4c1394dda46d09f35bd384dd30cc552ad5541990f98844fb06676e9ca"
    createdAt := createdAt, kind := 1, tags := [], content := "", sig := "" }

private def moment : Clock := { wall := 1700200000, mono := 0 }

private def countSite (archive : List ArchiveFile) : Site ℕ Unit :=
  { cfg := { wotRefreshEvery := 1000, minRefreshInterval := 0, persistInterval := 0 }
    analyses := [countAll], archive := archive }

/-- Two files with an event each. -/
private def twoDumps : Site ℕ Unit :=
  countSite [{ key := "a:1", len := 1, events := [postAt 1700000000] },
    { key := "b:1", len := 1, events := [postAt 1700000001] }]

/-- One file with two events. -/
private def oneDump : Site ℕ Unit :=
  countSite [{ key := "a:2", len := 2, events := [postAt 1700000000, postAt 1700000001] }]

private def statsIngest (stopAfterFiles : Option ℕ) : ReplayAct :=
  .start { parallelism := 1, index := false, stopAfterFiles := stopAfterFiles }

/-- Stop after a file, flush, and go on in a new process. -/
private def stopAndResume : List ReplayAct :=
  [statsIngest (some 1), .pass, .nextGroup, .fold (postAt 1700000000) moment, .endGroup moment,
    .nextGroup, .finalize moment, .finish moment, .restart moment,
    statsIngest none, .pass, .nextGroup, .fold (postAt 1700000001) moment, .endGroup moment,
    .nextGroup, .advance moment, .finalize moment]

/-- Cancel with one of the two events of the file folded, and start again. -/
private def cancelAndRepeat : List ReplayAct :=
  [statsIngest none, .pass, .nextGroup, .fold (postAt 1700000000) moment, .cancel,
    .endGroup moment, .finalize moment,
    statsIngest none, .pass, .nextGroup, .fold (postAt 1700000000) moment,
    .fold (postAt 1700000001) moment, .endGroup moment, .nextGroup, .advance moment]

private def onePassB (n : Node ℕ Unit) : ReplayAct → Bool
  | .start opts => (match n.pipe.registry.stages with | .ok _ => true | .error _ => false) &&
      decide ((n.planned opts).stages.length = 1)
  | _ => true

private theorem onePass_of_onePassB (n : Node ℕ Unit) (a : ReplayAct) (h : onePassB n a = true) :
    OnePass n a := by
  cases a with
  | start opts =>
    rw [onePassB, Bool.and_eq_true, decide_eq_true_eq] at h
    refine ⟨?_, h.2⟩
    cases hstages : n.pipe.registry.stages with
    | ok stages => exact ⟨stages, rfl⟩
    | error err =>
      rw [hstages] at h
      cases h.1
  | _ => trivial

private def readyB (site : Site ℕ Unit) (n : Node ℕ Unit) : ReplayAct → Bool
  | .start opts => n.pipe.registry.entries.all fun e => !e.needsBackfill ||
      (decide (e.handed = e.analysis.wanted
        (eventsOf (site.archive.filter fun f => f.key ∈ e.progress.rebuild.completed))) &&
      ((n.started opts).toRead site).all fun f =>
        decide (f.key ∉ e.progress.rebuild.completed))
  | _ => true

private theorem readyToResume_of_readyB (site : Site ℕ Unit) (n : Node ℕ Unit) (a : ReplayAct)
    (h : readyB site n a = true) : ReadyToResume site n a := by
  cases a with
  | start opts =>
    intro e he hpend
    have hboth := List.all_eq_true.mp h e he
    rw [hpend, Bool.not_true, Bool.false_or, Bool.and_eq_true, decide_eq_true_eq] at hboth
    refine ⟨hboth.1, ?_⟩
    intro f hf hdone
    have hnot := List.all_eq_true.mp hboth.2 f hf
    rw [decide_eq_true_eq] at hnot
    exact absurd hdone hnot
  | _ => trivial

/-- A rebuild that stops between two files goes on with the second. -/
theorem stopped_between_files :
    ∃ n₀, boot twoDumps () (some fun _ => none) moment = some n₀ ∧
      (run (step twoDumps) n₀ stopAndResume).isSome = true ∧
      Along (step twoDumps) (fun n a => DerivedOnce twoDumps n a ∧ NotReread n a) n₀
        stopAndResume ∧
      ∀ n, Visited (step twoDumps) n₀ stopAndResume n → NeverTwice twoDumps n := by
  have hrun : (boot twoDumps () (some fun _ => none) moment).any (fun n₀ =>
      (run (step twoDumps) n₀ stopAndResume).isSome &&
        (alongB (step twoDumps) onePassB n₀ stopAndResume &&
          alongB (step twoDumps) (readyB twoDumps) n₀ stopAndResume)) = true := by
    decide +kernel
  obtain ⟨n₀, hboot, hall⟩ := (Option.any_eq_true _ _).mp hrun
  rw [Bool.and_eq_true, Bool.and_eq_true] at hall
  refine ⟨n₀, hboot, hall.1, resumed_once (by decide) (by decide) ?_ hboot
    (along_of_alongB onePass_of_onePassB hall.2.1)
    (along_of_alongB (readyToResume_of_readyB twoDumps) hall.2.2)⟩
  intro st hst name
  rw [← Option.some.inj hst]

private def derivedB (n : Node ℕ Unit) : ReplayAct → Bool
  | .advance clk =>
    (n.pipe.registry.entries.zip (n.pipe.advancePass clk).1.registry.entries).all fun p =>
      !p.1.needsBackfill || p.2.needsBackfill ||
        decide (p.2.handed = p.2.analysis.wanted (eventsOf oneDump.archive))
  | _ => true

private theorem derivedB_of_derivedOnce (n : Node ℕ Unit) (a : ReplayAct)
    (h : DerivedOnce oneDump n a) : derivedB n a = true := by
  cases a with
  | advance clk =>
    apply List.all_eq_true.mpr
    rintro ⟨e, e'⟩ hmem
    obtain ⟨i, hi⟩ := List.mem_iff_getElem?.mp hmem
    obtain ⟨he, he'⟩ := List.getElem?_zip_eq_some.mp hi
    cases hpend : e.needsBackfill with
    | false => rfl
    | true =>
      cases hderived : e'.needsBackfill with
      | true => rfl
      | false => simp [(h i e e' he hpend he' hderived).1]
  | _ => rfl

/-- A file cut off after its first event is folded from its beginning again. -/
theorem cut_file_counts_twice :
    ¬ ∀ (n₀ : Node ℕ Unit) (as : List ReplayAct), boot oneDump () none moment = some n₀ →
      Along (step oneDump) OnePass n₀ as → Along (step oneDump) (DerivedOnce oneDump) n₀ as := by
  intro h
  have hrun : (boot oneDump () none moment).any (fun n₀ =>
      (run (step oneDump) n₀ cancelAndRepeat).isSome &&
        (alongB (step oneDump) onePassB n₀ cancelAndRepeat &&
          !alongB (step oneDump) derivedB n₀ cancelAndRepeat)) = true := by
    decide +kernel
  obtain ⟨n₀, hboot, hall⟩ := (Option.any_eq_true _ _).mp hrun
  rw [Bool.and_eq_true, Bool.and_eq_true, Bool.not_eq_true'] at hall
  obtain ⟨hsome, hone, hnot⟩ := hall
  obtain ⟨n, hn⟩ := Option.isSome_iff_exists.mp hsome
  have honce := h n₀ cancelAndRepeat hboot (along_of_alongB onePass_of_onePassB hone)
  have hall := alongB_of_along (fun n a _ _ hn => derivedB_of_derivedOnce n a hn) honce hn
  rw [hnot] at hall
  cases hall

end Runs

end NostrSearch.Indexer
