import NostrSearch.Indexer.Replay

/-!
# A replay over files that grow

A live node appends each new event to a dump of its archive and hands it to the writer task, which
processes it some time later. A stats-only replay may read the same dumps meanwhile: one reader
for each file of a group, which hands over the events of its file in order, finds the end of the
file at some time, and does not see what is appended after that. A file is recorded as finished
under the size it has when its group ends.

An analysis that is still to be derived takes whatever it is handed, so what it has is what was
processed and what was read (`Balanced`). `counted_iff` says that it observes each live event once
by the time it is marked backfilled, if and only if at that time the event was processed and no
reader got to it, or it was not and one reader did.
-/

namespace NostrSearch.Indexer

open NostrSearch.Core NostrSearch.Lib NostrSearch.Stats

/-- How often something is in front of a place, when it is at one place only. -/
theorem count_take_of_single {α : Type} [DecidableEq α] {l : List α} {a : α} {k : ℕ}
    (hk : l[k]? = some a) (hsingle : ∀ j, l[j]? = some a → j = k) (m : ℕ) :
    (l.take m).count a = if k < m then 1 else 0 := by
  induction l generalizing k m with
  | nil => cases hk
  | cons x xs ih =>
    cases m with
    | zero => rfl
    | succ m =>
      rw [List.take_succ_cons, List.count_cons]
      cases k with
      | zero =>
        have hx : x = a := Option.some.inj hk
        have hnone : a ∉ xs.take m := by
          intro hmem
          obtain ⟨j, hj⟩ := List.mem_iff_getElem?.mp (List.mem_of_mem_take hmem)
          have := hsingle (j + 1) (by rw [List.getElem?_cons_succ, hj])
          omega
        rw [List.count_eq_zero.mpr hnone]
        simp [hx]
      | succ k =>
        have hx : x ≠ a := by
          intro hx
          have := hsingle 0 (by rw [List.getElem?_cons_zero, hx])
          omega
        rw [ih hk fun j hj => by
          have := hsingle (j + 1) (by rw [List.getElem?_cons_succ, hj])
          omega]
        simp [hx]

/-- The dumps of the input directory, by name, with the events in them. -/
abbrev Dumps := Finmap fun _ : String => List NostrEvent

namespace Dumps

def contents (files : Dumps) (name : String) : List NostrEvent := (files.lookup name).getD []

/-- Append an event to a dump, which need not be there yet. -/
def append (files : Dumps) (name : String) (ev : NostrEvent) : Dumps :=
  files.insert name (files.contents name ++ [ev])

/-- The archive has no event with this id. -/
def Lacks (files : Dumps) (id : String) : Prop :=
  ∀ name ∈ files.keys, ∀ ev ∈ files.contents name, ev.id ≠ id

instance (files : Dumps) (id : String) : Decidable (files.Lacks id) :=
  inferInstanceAs (Decidable (∀ name ∈ files.keys, ∀ ev ∈ files.contents name, ev.id ≠ id))

variable {files : Dumps} {name name' : String} {ev : NostrEvent}

theorem contents_append_self (files : Dumps) (name : String) (ev : NostrEvent) :
    (files.append name ev).contents name = files.contents name ++ [ev] := by
  rw [append, contents, Finmap.lookup_insert, Option.getD_some]

theorem contents_append_of_ne (h : name' ≠ name) :
    (files.append name ev).contents name' = files.contents name' := by
  rw [append, contents, Finmap.lookup_insert_of_ne files h, contents]

/-- An append adds one place, behind the others of its dump. -/
theorem getElem_append {k : ℕ} {old : NostrEvent} :
    ((files.append name ev).contents name')[k]? = some old ↔
      (files.contents name')[k]? = some old ∨
        name' = name ∧ k = (files.contents name).length ∧ old = ev := by
  by_cases hname : name' = name
  · subst hname
    rw [contents_append_self, List.getElem?_append]
    by_cases hk : k < (files.contents name').length
    · rw [if_pos hk]
      have hne : k ≠ (files.contents name').length := by omega
      simp [hne]
    · rw [if_neg hk, List.getElem?_eq_none (by omega : (files.contents name').length ≤ k)]
      by_cases heq : k = (files.contents name').length
      · simp [heq, eq_comm]
      · rw [List.getElem?_eq_none (by simp only [List.length_singleton]; omega)]
        simp [heq]
  · rw [contents_append_of_ne hname]
    simp [hname]

theorem length_contents_append :
    (files.contents name').length ≤ ((files.append name ev).contents name').length := by
  by_cases hname : name' = name
  · subst hname
    rw [contents_append_self, List.length_append]
    omega
  · rw [contents_append_of_ne hname]

/-- What is in front of an append stays. -/
theorem take_contents_append {k : ℕ} (h : k ≤ (files.contents name').length) :
    ((files.append name ev).contents name').take k = (files.contents name').take k := by
  by_cases hname : name' = name
  · subst hname
    rw [contents_append_self, List.take_append_of_le_length h]
  · rw [contents_append_of_ne hname]

theorem Lacks.ne {id : String} (h : files.Lacks id) {k : ℕ} {old : NostrEvent}
    (hold : (files.contents name)[k]? = some old) : old.id ≠ id := by
  have hmem : old ∈ files.contents name := List.mem_of_getElem? hold
  apply h name _ old hmem
  -- a dump that is not there has no events
  rw [Finmap.mem_keys]
  by_contra hnot
  rw [contents, Finmap.lookup_eq_none.mpr hnot] at hmem
  exact absurd hmem List.not_mem_nil

end Dumps

/-- The name of a dump and its size. -/
def fileKey (len : List NostrEvent → ℕ) (files : Dumps) (name : String) : String :=
  name ++ ":" ++ toString (len (files.contents name))

/-- A reader of a dump: how many of its events were handed over, and where it found the end. -/
structure Reader where
  file : String
  pos : ℕ
  stop : Option ℕ
deriving DecidableEq

def Reader.opened (name : String) : Reader := { file := name, pos := 0, stop := none }

/-- Where an ingest is, as in `Phase`. -/
inductive GrowPhase
  | idle
  | passStart
  | reading (groups : List (List String)) (filesDone : ℕ)
  /-- in a group, with its readers -/
  | group (files : List String) (readers : Multiset Reader) (groups : List (List String))
      (filesDone : ℕ)
  | advancing
  | finalizing

structure GrowNode (σ ε : Type) where
  pipe : Pipeline σ ε
  files : Dumps
  phase : GrowPhase
  opts : ReplayOptions
  cancel : Bool
  /-- live events that are in a dump and still in the queue of the writer -/
  waiting : Multiset NostrEvent
  /-- those the writer has processed -/
  processed : Multiset NostrEvent
  /-- the readers of the groups that are over -/
  closed : Multiset Reader

inductive GrowAct
  /-- a new event is appended to a dump and sent to the writer -/
  | arrive (name : String) (ev : NostrEvent)
  /-- the writer processes an event -/
  | process (ev : NostrEvent) (clk : Clock)
  | start (opts : ReplayOptions)
  | pass
  | nextGroup
  /-- a reader hands over its next event -/
  | read (r : Reader) (clk : Clock)
  /-- a reader finds the end of its file -/
  | eof (r : Reader)
  | endGroup (clk : Clock)
  | advance (clk : Clock)
  | finalize (clk : Clock)
  | cancel

namespace GrowNode

variable {σ ε : Type}

/-- A live pipeline over some dumps, with nothing under way. -/
def ofLive (pipe : Pipeline σ ε) (files : Dumps) : GrowNode σ ε :=
  { pipe := { pipe with live := true }, files := files, phase := .idle, cancel := false
    opts := { parallelism := 1, index := false, stopAfterFiles := none }
    waiting := 0, processed := 0, closed := 0 }

/-- The files a pass reads, as `batch_files` has them: `key` is the name. -/
def toRead (len : List NostrEvent → ℕ) (n : GrowNode σ ε) : List ArchiveFile :=
  ((n.files.keys.sort (· ≤ ·)).filter fun name =>
    !n.pipe.passFileDone (fileKey len n.files name)).map fun name =>
      { key := name, len := len (n.files.contents name), events := n.files.contents name }

def groups (len : List NostrEvent → ℕ) (n : GrowNode σ ε) : List (List String) :=
  (batchFiles (n.toRead len) (max n.opts.parallelism 1) resumeBatchBytes).map
    (List.map ArchiveFile.key)

/-- A step of a node whose replays are stats-only. `len` is the size of a dump. -/
def step (len : List NostrEvent → ℕ) (n : GrowNode σ ε) : GrowAct → Option (GrowNode σ ε)
  | .arrive name ev =>
    if n.files.Lacks ev.id then
      some { n with files := n.files.append name ev, waiting := ev ::ₘ n.waiting }
    else none
  | .process ev clk =>
    if ev ∈ n.waiting then
      some { n with
        pipe := n.pipe.foldOnly ev clk
        waiting := n.waiting.erase ev
        processed := ev ::ₘ n.processed }
    else none
  | .start opts =>
    match n.phase with
    | .idle =>
      if opts.index then none
      else some { n with pipe := n.pipe.planReplay.1, phase := .passStart, opts := opts, cancel := false }
    | _ => none
  | .pass =>
    match n.phase with
    | .passStart =>
      if n.cancel then some { n with phase := .finalizing }
      else if !n.pipe.passHasPendingAnalyses || !n.pipe.passNeedsCorpus then
        some { n with phase := .advancing }
      else some { n with phase := .reading (n.groups len) 0 }
    | _ => none
  | .nextGroup =>
    match n.phase with
    | .reading [] _ => some { n with phase := if n.cancel then .finalizing else .advancing }
    | .reading (g :: gs) filesDone =>
      if n.cancel then some { n with phase := .finalizing }
      else if n.opts.stopAfterFiles.any (fun m => decide (m ≤ filesDone)) then
        some { n with cancel := true, phase := .finalizing }
      else
        some { n with phase := .group g (Multiset.ofList (g.map Reader.opened)) gs filesDone }
    | _ => none
  | .read r clk =>
    match n.phase with
    | .group files readers gs filesDone =>
      if n.cancel = false ∧ r ∈ readers ∧ r.stop.all (fun s => decide (r.pos < s)) = true then
        (n.files.contents r.file)[r.pos]?.map fun ev =>
          { n with
            pipe := n.pipe.foldOnly ev clk
            phase := .group files ({ r with pos := r.pos + 1 } ::ₘ readers.erase r) gs filesDone }
      else none
    | _ => none
  | .eof r =>
    match n.phase with
    | .group files readers gs filesDone =>
      if r ∈ readers ∧ r.stop = none then
        let found := { r with stop := some (n.files.contents r.file).length }
        some { n with phase := .group files (found ::ₘ readers.erase r) gs filesDone }
      else none
    | _ => none
  | .endGroup clk =>
    match n.phase with
    | .group files readers gs filesDone =>
      if n.cancel then some { n with phase := .finalizing, closed := n.closed + readers }
      else if ∀ r ∈ readers, r.stop = some r.pos then
        some { n with
          pipe := n.pipe.finishPassFiles (files.map (fileKey len n.files)) clk
          phase := .reading gs (filesDone + files.length)
          closed := n.closed + readers }
      else none
    | _ => none
  | .advance clk =>
    match n.phase with
    | .advancing =>
      let a := n.pipe.advancePass clk
      some { n with pipe := a.1, phase := if a.2 then .passStart else .finalizing }
    | _ => none
  | .finalize clk =>
    match n.phase with
    | .finalizing => some { n with pipe := n.pipe.goLive clk, phase := .idle }
    | _ => none
  | .cancel => some { n with cancel := true }

/-! ## What each step can do -/

section Actions
variable {len : List NostrEvent → ℕ} {n n' : GrowNode σ ε}

theorem step_arrive {name : String} {ev : NostrEvent}
    (h : step len n (.arrive name ev) = some n') :
    n.files.Lacks ev.id ∧
      n' = { n with files := n.files.append name ev, waiting := ev ::ₘ n.waiting } := by
  simp only [step, Option.ite_none_right_eq_some, Option.some.injEq] at h
  exact ⟨h.1, h.2.symm⟩

theorem step_process {ev : NostrEvent} {clk : Clock} (h : step len n (.process ev clk) = some n') :
    ev ∈ n.waiting ∧ n' = { n with
      pipe := n.pipe.foldOnly ev clk
      waiting := n.waiting.erase ev
      processed := ev ::ₘ n.processed } := by
  simp only [step, Option.ite_none_right_eq_some, Option.some.injEq] at h
  exact ⟨h.1, h.2.symm⟩

theorem step_start {opts : ReplayOptions} (h : step len n (.start opts) = some n') :
    n.phase = .idle ∧ opts.index = false ∧ n' = { n with
      pipe := n.pipe.planReplay.1
      phase := .passStart
      opts := opts
      cancel := false } := by
  simp only [step] at h
  split at h
  case h_1 hphase =>
    simp only [Option.ite_none_left_eq_some, Bool.not_eq_true, Option.some.injEq] at h
    exact ⟨hphase, h.1, h.2.symm⟩
  case h_2 => cases h

theorem step_pass (h : step len n .pass = some n') :
    n.phase = .passStart ∧
      ∃ phase, (phase = .finalizing ∨ phase = .advancing ∨ phase = .reading (n.groups len) 0) ∧
        n' = { n with phase := phase } := by
  simp only [step] at h
  split at h
  case h_2 => cases h
  case h_1 hphase =>
    refine ⟨hphase, ?_⟩
    split at h
    · exact ⟨.finalizing, Or.inl rfl, (Option.some.inj h).symm⟩
    · split at h
      · exact ⟨.advancing, Or.inr (Or.inl rfl), (Option.some.inj h).symm⟩
      · exact ⟨.reading (n.groups len) 0, Or.inr (Or.inr rfl), (Option.some.inj h).symm⟩

/-- The files of a pass are done with, or the readers of the next group are opened. -/
theorem step_nextGroup (h : step len n .nextGroup = some n') :
    ∃ groups filesDone, n.phase = .reading groups filesDone ∧
      ((∃ phase cancel, (phase = .finalizing ∨ phase = .advancing) ∧
          n' = { n with phase := phase, cancel := cancel }) ∨
        (n.cancel = false ∧ ∃ g gs, groups = g :: gs ∧ n' = { n with
          phase := .group g (Multiset.ofList (g.map Reader.opened)) gs filesDone })) := by
  simp only [step] at h
  split at h
  case h_1 filesDone hphase =>
    refine ⟨[], filesDone, hphase, Or.inl ⟨_, n.cancel, ?_, (Option.some.inj h).symm⟩⟩
    split
    · exact Or.inl rfl
    · exact Or.inr rfl
  case h_2 g gs filesDone hphase =>
    refine ⟨g :: gs, filesDone, hphase, ?_⟩
    split at h
    case isTrue => exact Or.inl ⟨.finalizing, n.cancel, Or.inl rfl, (Option.some.inj h).symm⟩
    case isFalse hcancel =>
      split at h
      · exact Or.inl ⟨.finalizing, true, Or.inl rfl, (Option.some.inj h).symm⟩
      · exact Or.inr ⟨by simpa using hcancel, g, gs, rfl, (Option.some.inj h).symm⟩
  case h_3 => cases h

theorem step_read {r : Reader} {clk : Clock} (h : step len n (.read r clk) = some n') :
    ∃ files rs gs filesDone ev, n.phase = .group files rs gs filesDone ∧ n.cancel = false ∧
      r ∈ rs ∧ r.stop.all (fun s => decide (r.pos < s)) = true ∧
      (n.files.contents r.file)[r.pos]? = some ev ∧ n' = { n with
        pipe := n.pipe.foldOnly ev clk
        phase := .group files ({ r with pos := r.pos + 1 } ::ₘ rs.erase r) gs filesDone } := by
  simp only [step] at h
  split at h
  case h_2 => cases h
  case h_1 files rs gs filesDone hphase =>
    rw [Option.ite_none_right_eq_some] at h
    obtain ⟨⟨hcancel, hr, hstop⟩, h⟩ := h
    obtain ⟨ev, hev, rfl⟩ := Option.map_eq_some_iff.mp h
    exact ⟨files, rs, gs, filesDone, ev, hphase, hcancel, hr, hstop, hev, rfl⟩

theorem step_eof {r : Reader} (h : step len n (.eof r) = some n') :
    ∃ files rs gs filesDone, n.phase = .group files rs gs filesDone ∧ r ∈ rs ∧ r.stop = none ∧
      n' = { n with
        phase := .group files
          ({ r with stop := some (n.files.contents r.file).length } ::ₘ rs.erase r) gs filesDone } := by
  simp only [step] at h
  split at h
  case h_2 => cases h
  case h_1 files rs gs filesDone hphase =>
    simp only [Option.ite_none_right_eq_some, Option.some.injEq] at h
    exact ⟨files, rs, gs, filesDone, hphase, h.1.1, h.1.2, h.2.symm⟩

theorem step_endGroup {clk : Clock} (h : step len n (.endGroup clk) = some n') :
    ∃ files rs gs filesDone, n.phase = .group files rs gs filesDone ∧
      ((n.cancel = true ∧ n' = { n with phase := .finalizing, closed := n.closed + rs }) ∨
        (n.cancel = false ∧ (∀ r ∈ rs, r.stop = some r.pos) ∧ n' = { n with
          pipe := n.pipe.finishPassFiles (files.map (fileKey len n.files)) clk
          phase := .reading gs (filesDone + files.length)
          closed := n.closed + rs })) := by
  simp only [step] at h
  split at h
  case h_2 => cases h
  case h_1 files rs gs filesDone hphase =>
    refine ⟨files, rs, gs, filesDone, hphase, ?_⟩
    split at h
    case isTrue hcancel => exact Or.inl ⟨hcancel, (Option.some.inj h).symm⟩
    case isFalse hcancel =>
      simp only [Option.ite_none_right_eq_some, Option.some.injEq] at h
      exact Or.inr ⟨by simpa using hcancel, h.1, h.2.symm⟩

theorem step_advance {clk : Clock} (h : step len n (.advance clk) = some n') :
    n.phase = .advancing ∧ n' = { n with
      pipe := (n.pipe.advancePass clk).1
      phase := if (n.pipe.advancePass clk).2 then .passStart else .finalizing } := by
  simp only [step] at h
  split at h
  case h_1 hphase => exact ⟨hphase, (Option.some.inj h).symm⟩
  case h_2 => cases h

theorem step_finalize {clk : Clock} (h : step len n (.finalize clk) = some n') :
    n.phase = .finalizing ∧ n' = { n with pipe := n.pipe.goLive clk, phase := .idle } := by
  simp only [step] at h
  split at h
  case h_1 hphase => exact ⟨hphase, (Option.some.inj h).symm⟩
  case h_2 => cases h

end Actions

/-! ## Counting once -/

/-- The readers there have been. -/
def readers (n : GrowNode σ ε) : Multiset Reader :=
  match n.phase with
  | .group _ readers _ _ => n.closed + readers
  | _ => n.closed

/-- How many readers handed over event `k` of a file. -/
def readsOf (n : GrowNode σ ε) (file : String) (k : ℕ) : ℕ :=
  n.readers.countP fun r => r.file = file ∧ k < r.pos

/-- The live events since the start. -/
def arrived (n : GrowNode σ ε) : Multiset NostrEvent := n.waiting + n.processed

/-- An analysis that this step marks as backfilled has observed each live event that it wants
once. -/
def CountsOnce (len : List NostrEvent → ℕ) (n₀ n : GrowNode σ ε) (a : GrowAct) : Prop :=
  ∀ n', step len n a = some n' → ∀ (i : ℕ) (e₀ e e' : Entry σ ε), n₀.pipe.registry.entries[i]? = some e₀ →
    n.pipe.registry.entries[i]? = some e → n'.pipe.registry.entries[i]? = some e' →
    e.needsBackfill = true → e'.needsBackfill = false →
      ∀ ev ∈ e.analysis.wanted n.arrived, e'.handed.count ev = e₀.handed.count ev + 1

/-- A pass ends when each live event that one of its analyses wants was processed before a reader
got to it and is read by none, or is still in the queue and was read by one. -/
def OneWay (n : GrowNode σ ε) : GrowAct → Prop
  | .advance _ => ∀ (i : ℕ) (e : Entry σ ε), n.pipe.registry.entries[i]? = some e → i ∈ n.pipe.stage →
      e.needsBackfill = true → ∀ ev ∈ e.analysis.wanted n.arrived,
        ∀ name k, (n.files.contents name)[k]? = some ev →
          (ev ∈ n.processed ∧ n.readsOf name k = 0) ∨ (ev ∉ n.processed ∧ n.readsOf name k = 1)
  | _ => True

variable {len : List NostrEvent → ℕ} {n₀ n n' : GrowNode σ ε}

/-- The events a reader of these dumps handed over. -/
def readBy (files : Dumps) (r : Reader) : Multiset NostrEvent :=
  Multiset.ofList ((files.contents r.file).take r.pos)

/-- What the pending analyses were handed since the start. -/
def handedOver (n : GrowNode σ ε) : Multiset NostrEvent :=
  n.processed + (n.readers.map (readBy n.files)).sum

/-- An analysis that is still to be derived has what was handed over, and each live event is in one
place of one dump. -/
structure Balanced (n₀ n : GrowNode σ ε) : Prop where
  live : n.pipe.live = true
  bounded : ∀ r ∈ n.readers, r.pos ≤ (n.files.contents r.file).length
  entries : Registry.Pointwise (fun _ e₀ e => e.analysis = e₀.analysis ∧
    (e.needsBackfill = true → e.handed = e₀.handed + e₀.analysis.wanted n.handedOver))
    n₀.pipe.registry n.pipe.registry
  nodup : n.arrived.Nodup
  placed : ∀ ev ∈ n.arrived, ∃ (name : String) (k : ℕ), (n.files.contents name)[k]? = some ev
  single : ∀ ev ∈ n.arrived, ∀ (name name' : String) (k k' : ℕ),
    (n.files.contents name)[k]? = some ev → (n.files.contents name')[k']? = some ev →
      name = name' ∧ k = k'

theorem balanced_start (pipe : Pipeline σ ε) (files : Dumps) :
    Balanced (ofLive pipe files) (ofLive pipe files) := by
  have hnothing : (ofLive pipe files).handedOver = 0 := rfl
  refine ⟨rfl, fun r hr => absurd hr (Multiset.notMem_zero r), ?_, Multiset.nodup_zero,
    fun ev hev => absurd hev (Multiset.notMem_zero ev),
    fun ev hev => absurd hev (Multiset.notMem_zero ev)⟩
  apply Registry.pointwise_refl
  intro i e
  refine ⟨rfl, fun _ => ?_⟩
  rw [hnothing, DynAnalysis.wanted_zero, add_zero]

/-- A step that appends to no dump, and hands `s` over. -/
theorem Balanced.next (h : Balanced n₀ n) (s : Multiset NostrEvent)
    (hlive : n'.pipe.live = true) (hfiles : n'.files = n.files) (harrived : n'.arrived = n.arrived)
    (hbounded : ∀ r ∈ n'.readers, r.pos ≤ (n.files.contents r.file).length)
    (hover : n'.handedOver = n.handedOver + s)
    (hentries : Registry.Pointwise (fun _ e e' => e'.analysis = e.analysis ∧
      (e'.needsBackfill = true → e.needsBackfill = true ∧
        e'.handed = e.handed + e.analysis.wanted s)) n.pipe.registry n'.pipe.registry) :
    Balanced n₀ n' := by
  refine ⟨hlive, ?_, ?_, ?_, ?_, ?_⟩
  · rw [hfiles]
    exact hbounded
  · refine h.entries.trans hentries ?_
    rintro i e₀ e e' ⟨hanalysis, hhanded⟩ ⟨hanalysis', hhanded'⟩
    refine ⟨hanalysis'.trans hanalysis, fun hpend => ?_⟩
    obtain ⟨hpend', hmore⟩ := hhanded' hpend
    rw [hmore, hhanded hpend', hanalysis, hover, DynAnalysis.wanted_add, add_assoc]
  · rw [harrived]
    exact h.nodup
  · rw [harrived, hfiles]
    exact h.placed
  · rw [harrived, hfiles]
    exact h.single

/-- Nothing is handed over, and the analyses that are pending were. -/
theorem Balanced.quiet (h : Balanced n₀ n) (hlive : n'.pipe.live = true)
    (hfiles : n'.files = n.files) (hwaiting : n'.waiting = n.waiting)
    (hprocessed : n'.processed = n.processed) (hreaders : n'.readers = n.readers)
    (hentries : Registry.Pointwise (fun _ e e' => e'.analysis = e.analysis ∧
      e'.handed = e.handed ∧ (e'.needsBackfill = true → e.needsBackfill = true))
      n.pipe.registry n'.pipe.registry) : Balanced n₀ n' := by
  apply h.next 0 hlive hfiles
  · rw [arrived, arrived, hwaiting, hprocessed]
  · rw [hreaders]
    exact h.bounded
  · rw [handedOver, handedOver, hprocessed, hreaders, hfiles, add_zero]
  · apply hentries.mono
    rintro _ e e' ⟨hanalysis, hhanded, hpend⟩
    refine ⟨hanalysis, fun hp => ⟨hpend hp, ?_⟩⟩
    rw [hhanded, DynAnalysis.wanted_zero, add_zero]

/-- An event is folded into a live pipeline: each pending analysis that wants it has it. -/
theorem foldOnly_wanted {p : Pipeline σ ε} (hlive : p.live = true) (ev : NostrEvent) (clk : Clock) :
    (p.foldOnly ev clk).live = true ∧
      Registry.Pointwise (fun _ e e' => e'.analysis = e.analysis ∧
        (e'.needsBackfill = true → e.needsBackfill = true ∧
          e'.handed = e.handed + e.analysis.wanted {ev})) p.registry (p.foldOnly ev clk).registry := by
  obtain ⟨hentries, hlive', -, -⟩ := Pipeline.foldOnly_live hlive ev clk
  refine ⟨hlive', hentries.mono ?_⟩
  intro _ e e' hm
  refine ⟨hm.analysis, fun hpend => ?_⟩
  rw [hm.needsBackfill] at hpend
  refine ⟨hpend, ?_⟩
  rw [hm.handed, Entry.takes_of_needsBackfill hpend, DynAnalysis.wanted, Multiset.filter_singleton]
  rfl

/-! ## Steps -/

theorem Balanced.arrive (h : Balanced n₀ n) {name : String} {ev : NostrEvent}
    (hstep : step len n (.arrive name ev) = some n') : Balanced n₀ n' := by
  obtain ⟨hnew, rfl⟩ := step_arrive hstep
  have hfresh : ev ∉ n.arrived := by
    intro hmem
    obtain ⟨f, k, hk⟩ := h.placed ev hmem
    exact hnew.ne hk rfl
  have harrived : ∀ x, x ∈ ev ::ₘ n.waiting + n.processed ↔ x = ev ∨ x ∈ n.arrived := by
    intro x
    rw [Multiset.cons_add, Multiset.mem_cons, arrived]
  refine ⟨h.live, ?_, ?_, ?_, ?_, ?_⟩
  · intro r hr
    exact (h.bounded r hr).trans Dumps.length_contents_append
  · -- the readers are in front of the new event
    have hover : ({ n with
        files := n.files.append name ev
        waiting := ev ::ₘ n.waiting } : GrowNode σ ε).handedOver = n.handedOver := by
      show n.processed + (n.readers.map (readBy (n.files.append name ev))).sum = _
      rw [handedOver]
      congr 2
      apply Multiset.map_congr rfl
      intro r hr
      rw [readBy, Dumps.take_contents_append (h.bounded r hr), readBy]
    rw [hover]
    exact h.entries
  · show (ev ::ₘ n.waiting + n.processed).Nodup
    rw [Multiset.cons_add]
    exact Multiset.nodup_cons.mpr ⟨hfresh, h.nodup⟩
  · intro x hx
    rcases (harrived x).mp hx with rfl | hold
    · exact ⟨name, _, Dumps.getElem_append.mpr (Or.inr ⟨rfl, rfl, rfl⟩)⟩
    · obtain ⟨f, k, hk⟩ := h.placed x hold
      exact ⟨f, k, Dumps.getElem_append.mpr (Or.inl hk)⟩
  · intro x hx f g j k hj hk
    rw [Dumps.getElem_append] at hj hk
    rcases (harrived x).mp hx with rfl | hold
    · rcases hj with hj | ⟨rfl, rfl, -⟩
      · exact absurd rfl (hnew.ne hj)
      · rcases hk with hk | ⟨rfl, rfl, -⟩
        · exact absurd rfl (hnew.ne hk)
        · exact ⟨rfl, rfl⟩
    · have hne : x ≠ ev := fun heq => hfresh (heq ▸ hold)
      exact h.single x hold f g j k (hj.resolve_right fun hn => hne hn.2.2)
        (hk.resolve_right fun hn => hne hn.2.2)

theorem Balanced.process (h : Balanced n₀ n) {ev : NostrEvent} {clk : Clock}
    (hstep : step len n (.process ev clk) = some n') : Balanced n₀ n' := by
  obtain ⟨hev, rfl⟩ := step_process hstep
  obtain ⟨hlive, hentries⟩ := foldOnly_wanted h.live ev clk
  refine h.next {ev} hlive rfl ?_ h.bounded ?_ hentries
  · show n.waiting.erase ev + ev ::ₘ n.processed = n.waiting + n.processed
    rw [Multiset.add_cons, ← Multiset.cons_add, Multiset.cons_erase hev]
  · show ev ::ₘ n.processed + (n.readers.map (readBy n.files)).sum = n.handedOver + {ev}
    rw [handedOver, ← Multiset.singleton_add]
    abel

/-- A reader hands over the event at its place. -/
theorem readBy_next {files : Dumps} {r : Reader} {ev : NostrEvent}
    (h : (files.contents r.file)[r.pos]? = some ev) :
    readBy files { r with pos := r.pos + 1 } = readBy files r + {ev} := by
  show Multiset.ofList ((files.contents r.file).take (r.pos + 1)) = _
  rw [List.take_add_one, h, Option.toList_some, ← Multiset.coe_add, readBy,
    Multiset.coe_singleton]

/-- A reader that moves on within its file is where it can be. -/
theorem Balanced.bounded_moved (h : Balanced n₀ n) {files : List String} {rs : Multiset Reader}
    {gs : List (List String)} {filesDone : ℕ} (hphase : n.phase = .group files rs gs filesDone)
    {r r' : Reader} (hr' : r'.pos ≤ (n.files.contents r'.file).length) :
    ∀ x ∈ n.closed + r' ::ₘ rs.erase r, x.pos ≤ (n.files.contents x.file).length := by
  have hbounded := h.bounded
  rw [readers, hphase] at hbounded
  intro x hx
  rcases Multiset.mem_add.mp hx with hclosed | hopen
  · exact hbounded x (Multiset.mem_add.mpr (Or.inl hclosed))
  · rcases Multiset.mem_cons.mp hopen with rfl | hother
    · exact hr'
    · exact hbounded x (Multiset.mem_add.mpr (Or.inr (Multiset.mem_of_mem_erase hother)))

/-- What the readers have handed over when one of them has handed over `s` more. -/
theorem sum_moved {files : List String} {rs : Multiset Reader} {gs : List (List String)}
    {filesDone : ℕ} (hphase : n.phase = .group files rs gs filesDone) {r r' : Reader} (hr : r ∈ rs)
    {s : Multiset NostrEvent} (hs : readBy n.files r' = readBy n.files r + s) :
    n.processed + ((n.closed + r' ::ₘ rs.erase r).map (readBy n.files)).sum = n.handedOver + s := by
  have hreaders : n.readers = n.closed + r ::ₘ rs.erase r := by
    rw [readers, hphase, Multiset.cons_erase hr]
  rw [handedOver, hreaders]
  simp only [Multiset.map_add, Multiset.map_cons, Multiset.sum_add, Multiset.sum_cons, hs]
  abel

theorem Balanced.read (h : Balanced n₀ n) {r : Reader} {clk : Clock}
    (hstep : step len n (.read r clk) = some n') : Balanced n₀ n' := by
  obtain ⟨files, rs, gs, filesDone, ev, hphase, -, hr, -, hev, rfl⟩ := step_read hstep
  obtain ⟨hlive, hentries⟩ := foldOnly_wanted h.live ev clk
  refine h.next {ev} hlive rfl rfl (h.bounded_moved hphase ?_) ?_ hentries
  · have hlt := (List.getElem?_eq_some_iff.mp hev).1
    show r.pos + 1 ≤ (n.files.contents r.file).length
    omega
  · exact sum_moved hphase hr (readBy_next hev)

theorem Balanced.eof (h : Balanced n₀ n) {r : Reader}
    (hstep : step len n (.eof r) = some n') : Balanced n₀ n' := by
  obtain ⟨files, rs, gs, filesDone, hphase, hr, -, rfl⟩ := step_eof hstep
  have hpos : r.pos ≤ (n.files.contents r.file).length := by
    apply h.bounded
    rw [readers, hphase]
    exact Multiset.mem_add.mpr (Or.inr hr)
  refine h.next 0 h.live rfl rfl (h.bounded_moved hphase ?_) ?_ ?_
  · exact hpos
  · -- it has found the end, and is where it was
    exact sum_moved hphase hr (add_zero _).symm
  · apply Registry.pointwise_refl
    intro i e
    refine ⟨rfl, fun hpend => ⟨hpend, ?_⟩⟩
    rw [DynAnalysis.wanted_zero, add_zero]

/-- Nothing but the place of the ingest changes. -/
theorem Balanced.phase (h : Balanced n₀ n) (phase : GrowPhase) (cancel : Bool)
    (closed : Multiset Reader)
    (hreaders : ({ n with phase := phase, cancel := cancel, closed := closed } :
      GrowNode σ ε).readers = n.readers) :
    Balanced n₀ { n with phase := phase, cancel := cancel, closed := closed } :=
  h.quiet h.live rfl rfl rfl hreaders (Registry.pointwise_refl (fun _ _ => ⟨rfl, rfl, id⟩) _)

theorem Balanced.start (h : Balanced n₀ n) {opts : ReplayOptions}
    (hstep : step len n (.start opts) = some n') : Balanced n₀ n' := by
  obtain ⟨hphase, -, rfl⟩ := step_start hstep
  obtain ⟨stages, pass, hplan⟩ := n.pipe.planReplay_eq
  have hreaders : n.readers = n.closed := by rw [readers, hphase]
  rw [hplan]
  exact h.quiet h.live rfl rfl rfl hreaders.symm
    (Registry.pointwise_refl (fun _ _ => ⟨rfl, rfl, id⟩) _)

theorem Balanced.pass (h : Balanced n₀ n) (hstep : step len n .pass = some n') :
    Balanced n₀ n' := by
  obtain ⟨hphase, phase, hnext, rfl⟩ := step_pass hstep
  have hreaders : n.readers = n.closed := by rw [readers, hphase]
  apply h.phase phase n.cancel n.closed
  rw [hreaders]
  rcases hnext with rfl | rfl | rfl <;> rfl

/-- The readers of a group have handed over nothing yet. -/
theorem sum_opened (files : Dumps) (g : List String) :
    ((Multiset.ofList (g.map Reader.opened)).map (readBy files)).sum = 0 := by
  apply Multiset.sum_eq_zero
  intro s hs
  obtain ⟨r, hr, rfl⟩ := Multiset.mem_map.mp hs
  obtain ⟨name, -, rfl⟩ := List.mem_map.mp (Multiset.mem_coe.mp hr)
  rfl

theorem Balanced.nextGroup (h : Balanced n₀ n) (hstep : step len n .nextGroup = some n') :
    Balanced n₀ n' := by
  obtain ⟨groups, filesDone, hphase, hnext⟩ := step_nextGroup hstep
  have hreaders : n.readers = n.closed := by rw [readers, hphase]
  rcases hnext with ⟨phase, cancel, hout, rfl⟩ | ⟨-, g, gs, -, rfl⟩
  · apply h.phase phase cancel n.closed
    rw [hreaders]
    rcases hout with rfl | rfl <;> rfl
  · refine h.next 0 h.live rfl rfl ?_ ?_ ?_
    · intro r hr
      rcases Multiset.mem_add.mp hr with hclosed | hopen
      · apply h.bounded
        rw [hreaders]
        exact hclosed
      · obtain ⟨name, -, rfl⟩ := List.mem_map.mp (Multiset.mem_coe.mp hopen)
        exact Nat.zero_le _
    · show n.processed + ((n.closed + Multiset.ofList (g.map Reader.opened)).map
        (readBy n.files)).sum = n.handedOver + 0
      rw [handedOver, hreaders, Multiset.map_add, Multiset.sum_add, sum_opened, add_zero, add_zero]
    · apply Registry.pointwise_refl
      intro i e
      refine ⟨rfl, fun hpend => ⟨hpend, ?_⟩⟩
      rw [DynAnalysis.wanted_zero, add_zero]

theorem Balanced.endGroup (h : Balanced n₀ n) {clk : Clock}
    (hstep : step len n (.endGroup clk) = some n') : Balanced n₀ n' := by
  obtain ⟨files, rs, gs, filesDone, hphase, hend⟩ := step_endGroup hstep
  have hreaders : n.readers = n.closed + rs := by rw [readers, hphase]
  rcases hend with ⟨-, rfl⟩ | ⟨-, -, rfl⟩
  · exact h.phase .finalizing n.cancel (n.closed + rs) hreaders.symm
  · obtain ⟨hentries, hlive, -, -, -⟩ :=
      n.pipe.finishPassFiles_spec (files.map (fileKey len n.files)) clk
    refine h.quiet (hlive.trans h.live) rfl rfl rfl hreaders.symm (hentries.mono ?_)
    intro i e e' hrec
    refine ⟨hrec.analysis, hrec.handed, fun hpend => ?_⟩
    rw [← hrec.needsBackfill, hpend]

theorem Balanced.advance (h : Balanced n₀ n) {clk : Clock}
    (hstep : step len n (.advance clk) = some n') : Balanced n₀ n' := by
  obtain ⟨hphase, rfl⟩ := step_advance hstep
  obtain ⟨hentries, hlive, -, -, -, -⟩ := n.pipe.advancePass_spec clk
  have hreaders : n.readers = n.closed := by rw [readers, hphase]
  refine h.quiet (hlive.trans h.live) rfl rfl rfl ?_ (hentries.mono ?_)
  · rw [hreaders]
    cases (n.pipe.advancePass clk).2 with
    | true => rfl
    | false => rfl
  · intro i e e' hadv
    refine ⟨hadv.analysis, hadv.handed, fun hpend => ?_⟩
    by_cases hi : i ∈ n.pipe.stage
    · -- it is marked, so it is not pending
      rw [hadv.done hi] at hpend
      cases hpend
    · rw [← hpend, Entry.needsBackfill, Entry.needsBackfill, (hadv.other hi).1]

theorem Balanced.finalize (h : Balanced n₀ n) {clk : Clock}
    (hstep : step len n (.finalize clk) = some n') : Balanced n₀ n' := by
  obtain ⟨hphase, rfl⟩ := step_finalize hstep
  have hreaders : n.readers = n.closed := by rw [readers, hphase]
  have hquiet : Pipeline.Quiet n.pipe (n.pipe.refreshInner true clk) :=
    n.pipe.refreshInner_quiet true clk
  refine h.quiet rfl rfl rfl rfl hreaders.symm (hquiet.still.mono ?_)
  intro _ e e' hm
  refine ⟨hm.analysis, ?_, fun hpend => ?_⟩
  · rw [hm.handed, add_zero]
  · rw [← hm.needsBackfill, hpend]

theorem balanced_step (h : Balanced n₀ n) {a : GrowAct} (hstep : step len n a = some n') :
    Balanced n₀ n' := by
  cases a with
  | arrive name ev => exact h.arrive hstep
  | process ev clk => exact h.process hstep
  | start opts => exact h.start hstep
  | pass => exact h.pass hstep
  | nextGroup => exact h.nextGroup hstep
  | read r clk => exact h.read hstep
  | eof r => exact h.eof hstep
  | endGroup clk => exact h.endGroup hstep
  | advance clk => exact h.advance hstep
  | finalize clk => exact h.finalize hstep
  | cancel =>
    rw [← Option.some.inj hstep]
    exact h.phase n.phase true n.closed rfl

/-! ## When it counts once -/

/-- A step that ends no pass leaves each analysis as derived as it was. -/
theorem flags_step (hlive : n.pipe.live = true) {a : GrowAct} (hstep : step len n a = some n')
    (ha : ∀ clk, a ≠ .advance clk) :
    Registry.Pointwise (fun _ e e' => e'.needsBackfill = e.needsBackfill) n.pipe.registry
      n'.pipe.registry := by
  have hsame : Registry.Pointwise (fun _ e e' => e'.needsBackfill = e.needsBackfill)
      n.pipe.registry n.pipe.registry := by
    apply Registry.pointwise_refl
    exact fun _ _ => rfl
  have hfold : ∀ ev clk, Registry.Pointwise (fun _ e e' => e'.needsBackfill = e.needsBackfill)
      n.pipe.registry (n.pipe.foldOnly ev clk).registry := by
    intro ev clk
    obtain ⟨hentries, -, -, -⟩ := Pipeline.foldOnly_live hlive ev clk
    exact hentries.mono fun _ _ _ hm => hm.needsBackfill
  cases a with
  | arrive name ev =>
    obtain ⟨-, rfl⟩ := step_arrive hstep
    exact hsame
  | process ev clk =>
    obtain ⟨-, rfl⟩ := step_process hstep
    exact hfold ev clk
  | start opts =>
    obtain ⟨-, -, rfl⟩ := step_start hstep
    obtain ⟨stages, pass, hplan⟩ := n.pipe.planReplay_eq
    rw [hplan]
    exact hsame
  | pass =>
    obtain ⟨-, phase, -, rfl⟩ := step_pass hstep
    exact hsame
  | nextGroup =>
    obtain ⟨groups, filesDone, -, ⟨phase, cancel, -, rfl⟩ | ⟨-, g, gs, -, rfl⟩⟩ :=
      step_nextGroup hstep
    · exact hsame
    · exact hsame
  | read r clk =>
    obtain ⟨files, rs, gs, filesDone, ev, -, -, -, -, -, rfl⟩ := step_read hstep
    exact hfold ev clk
  | eof r =>
    obtain ⟨files, rs, gs, filesDone, -, -, -, rfl⟩ := step_eof hstep
    exact hsame
  | endGroup clk =>
    obtain ⟨files, rs, gs, filesDone, -, ⟨-, rfl⟩ | ⟨-, -, rfl⟩⟩ := step_endGroup hstep
    · exact hsame
    · -- files are recorded, and the flag stays
      obtain ⟨hentries, -, -, -, -⟩ :=
        n.pipe.finishPassFiles_spec (files.map (fileKey len n.files)) clk
      exact hentries.mono fun _ _ _ hrec => hrec.needsBackfill
  | advance clk => exact absurd rfl (ha clk)
  | finalize clk =>
    obtain ⟨-, rfl⟩ := step_finalize hstep
    have hquiet : Pipeline.Quiet n.pipe (n.pipe.refreshInner true clk) :=
      n.pipe.refreshInner_quiet true clk
    exact hquiet.still.mono fun _ _ _ hm => hm.needsBackfill
  | cancel =>
    rw [← Option.some.inj hstep]
    exact hsame

/-- Only `advance` marks an analysis as backfilled. -/
theorem marked_by_advance (hlive : n.pipe.live = true) {a : GrowAct}
    (hstep : step len n a = some n') {i : ℕ} {e e' : Entry σ ε}
    (he : n.pipe.registry.entries[i]? = some e) (he' : n'.pipe.registry.entries[i]? = some e')
    (hpend : e.needsBackfill = true) (hdone : e'.needsBackfill = false) :
    ∃ clk, a = .advance clk := by
  by_contra hnot
  have hkept := flags_step hlive hstep fun clk ha => hnot ⟨clk, ha⟩
  rw [hkept.2 i e e' he he', hpend] at hdone
  cases hdone

/-- A reader has handed a live event over once, or it has not come to it. -/
theorem count_readBy {files : Dumps} {ev : NostrEvent} {name : String} {k : ℕ}
    (hk : (files.contents name)[k]? = some ev)
    (hsingle : ∀ (name' : String) (k' : ℕ), (files.contents name')[k']? = some ev →
      name' = name ∧ k' = k) (r : Reader) :
    (readBy files r).count ev = if r.file = name ∧ k < r.pos then 1 else 0 := by
  rw [readBy, Multiset.coe_count]
  by_cases hname : r.file = name
  · subst hname
    rw [count_take_of_single hk fun j hj => (hsingle r.file j hj).2]
    simp
  · rw [if_neg fun h => hname h.1, List.count_eq_zero]
    intro hmem
    obtain ⟨j, hj⟩ := List.mem_iff_getElem?.mp (List.mem_of_mem_take hmem)
    exact hname (hsingle r.file j hj).1

/-- A live event was handed over when it was processed, and each time it was read. -/
theorem Balanced.count_handedOver (h : Balanced n₀ n) {ev : NostrEvent} (hev : ev ∈ n.arrived)
    {name : String} {k : ℕ} (hk : (n.files.contents name)[k]? = some ev) :
    n.handedOver.count ev = n.processed.count ev + n.readsOf name k := by
  have hone := count_readBy hk fun name' k' hk' => h.single ev hev name' name k' k hk' hk
  rw [handedOver, Multiset.count_add, readsOf, Multiset.countP_eq_card_filter]
  congr 1
  induction n.readers using Multiset.induction_on with
  | empty => rfl
  | cons r rs ih =>
    rw [Multiset.map_cons, Multiset.sum_cons, Multiset.count_add, ih, hone]
    by_cases hread : r.file = name ∧ k < r.pos
    · rw [if_pos hread, Multiset.filter_cons_of_pos rs hread, Multiset.card_cons]
      omega
    · rw [if_neg hread, Multiset.filter_cons_of_neg rs hread]
      omega

theorem Balanced.countsOnce_iff (h : Balanced n₀ n) {a : GrowAct}
    (hstep : step len n a = some n') : CountsOnce len n₀ n a ↔ OneWay n a := by
  -- what an analysis of the pass has of a live event
  have hcount : ∀ (i : ℕ) (e₀ e : Entry σ ε), n₀.pipe.registry.entries[i]? = some e₀ →
      n.pipe.registry.entries[i]? = some e → e.needsBackfill = true →
      ∀ ev ∈ e.analysis.wanted n.arrived, ∀ (name : String) (k : ℕ),
        (n.files.contents name)[k]? = some ev →
          e.handed.count ev = e₀.handed.count ev + (n.processed.count ev + n.readsOf name k) := by
    intro i e₀ e he₀ he hpend ev hev name k hk
    obtain ⟨hanalysis, hhanded⟩ := h.entries.2 i e₀ e he₀ he
    rw [DynAnalysis.wanted, Multiset.mem_filter] at hev
    rw [hhanded hpend, Multiset.count_add, DynAnalysis.wanted, ← hanalysis,
      Multiset.count_filter_of_pos (p := fun ev => e.analysis.folds ev = true) hev.2,
      h.count_handedOver hev.1 hk]
  -- it is processed at most once
  have hprocessed : ∀ ev, n.processed.count ev = if ev ∈ n.processed then 1 else 0 := by
    intro ev
    have hnodup : n.processed.Nodup := (Multiset.nodup_add.mp h.nodup).2.1
    exact Multiset.count_eq_of_nodup hnodup
  constructor
  · intro honce
    cases a with
    | advance clk =>
      intro i e he hi hpend ev hev name k hk
      obtain ⟨e₀, he₀, -⟩ := h.entries.back he
      obtain ⟨hentries, -⟩ := n.pipe.advancePass_spec clk
      obtain ⟨e', he', hadv⟩ := hentries.forth he
      have hnow := honce n' hstep i e₀ e e' he₀ he (by rw [(step_advance hstep).2]; exact he') hpend
        (hadv.done hi) ev hev
      rw [hadv.handed, hcount i e₀ e he₀ he hpend ev hev name k hk, hprocessed] at hnow
      by_cases hmem : ev ∈ n.processed
      · rw [if_pos hmem] at hnow
        exact Or.inl ⟨hmem, by omega⟩
      · rw [if_neg hmem] at hnow
        exact Or.inr ⟨hmem, by omega⟩
    | _ => trivial
  · intro hway m hm i e₀ e e' he₀ he he' hpend hdone ev hev
    obtain ⟨clk, rfl⟩ := marked_by_advance h.live hm he he' hpend hdone
    obtain ⟨hentries, -⟩ := n.pipe.advancePass_spec clk
    rw [(step_advance hm).2] at he'
    have hadv := hentries.2 i e e' he he'
    have hi : i ∈ n.pipe.stage := by
      by_contra hnot
      rw [Entry.needsBackfill, (hadv.other hnot).1, ← Entry.needsBackfill, hpend] at hdone
      cases hdone
    obtain ⟨name, k, hk⟩ := h.placed ev (Multiset.mem_filter.mp hev).1
    rw [hadv.handed, hcount i e₀ e he₀ he hpend ev hev name k hk, hprocessed]
    rcases hway i e he hi hpend ev hev name k hk with ⟨hmem, hreads⟩ | ⟨hmem, hreads⟩
    · rw [if_pos hmem, hreads]
    · rw [if_neg hmem, hreads]

/-- **Live events and a replay.** Every analysis that is marked backfilled has observed each live
event that it wants once, if and only if at the end of every pass each of them was either processed
and not read, or read by one reader and not processed. -/
theorem counted_iff (len : List NostrEvent → ℕ) (pipe : Pipeline σ ε) (files : Dumps)
    (as : List GrowAct) :
    Along (step len) (CountsOnce len (ofLive pipe files)) (ofLive pipe files) as ↔
      Along (step len) OneWay (ofLive pipe files) as := by
  have hall : ∀ a ∈ as, True := fun _ _ => trivial
  constructor
  · exact Along.imp (fun _ _ _ h _ _ hstep => balanced_step h hstep)
      (fun _ _ _ h _ honce hstep => (h.countsOnce_iff hstep).mp honce)
      (balanced_start pipe files) hall
  · exact Along.imp (fun _ _ _ h _ _ hstep => balanced_step h hstep)
      (fun _ _ _ h _ hway hstep => (h.countsOnce_iff hstep).mpr hway)
      (balanced_start pipe files) hall

/-! ## An event that is processed before it is read -/

section Runs

/-- An analysis that counts the events it is handed. -/
private def counter : DynAnalysis ℕ Unit :=
  { name := "counter", epoch := 0, deps := [], refreshInterval := none, kinds := none
    default := 0, attach := fun _ n => n, observe := fun _ _ _ n => (n + 1, (), true)
    refresh := fun _ n => n, contribute := fun _ w => w, onReset := fun _ _ => ()
    restored := fun n => n }

private def liveNote : NostrEvent :=
  { id := "5c83da77af1dec6d7289834998ad7aafbd9e2191396d75ec3cc27f5a77226f36"
    pubkey := "f7234bd4c1394dda46d09f35bd384dd30cc552ad5541990f98844fb06676e9ca"
    createdAt := 1700000000, kind := 1, tags := [], content := "", sig := "" }

private def evening : Clock := { wall := 1700200000, mono := 0 }

/-- A live pipeline whose analysis is still to be derived. -/
private def rebuilding : Pipeline ℕ Unit :=
  { registry := Registry.ofAnalyses [counter] (), world := World.empty, store := none
    cfg := { wotRefreshEvery := 1000, minRefreshInterval := 0, persistInterval := 0 }
    live := true, stages := [[0]], pass := 0, sinceRefresh := 0, lastRefresh := 0, lastPersist := 0
    refreshedOnce := true }

/-- The event is appended and processed, and then the replay reads its dump. -/
private def processedThenRead : List GrowAct :=
  [.arrive "events_20231114.jsonl" liveNote, .process liveNote evening,
    .start { parallelism := 1, index := false, stopAfterFiles := none }, .pass, .nextGroup,
    .read (Reader.opened "events_20231114.jsonl") evening,
    .eof { Reader.opened "events_20231114.jsonl" with pos := 1 }, .endGroup evening, .nextGroup]

/-- When it is marked backfilled, the analysis has counted the event twice. -/
theorem processed_and_read_counts_twice :
    ¬ ∀ as : List GrowAct, Along (step List.length) (CountsOnce List.length (ofLive rebuilding ∅))
      (ofLive rebuilding ∅) as := by
  intro h
  have hrun : (run (step List.length) (ofLive rebuilding ∅) processedThenRead).any (fun n =>
      (step List.length n (.advance evening)).any fun n' =>
        n.pipe.registry.entries[0]?.any fun e =>
          n'.pipe.registry.entries[0]?.any fun e' =>
            decide (e.needsBackfill = true ∧ e'.needsBackfill = false ∧
              liveNote ∈ e.analysis.wanted n.arrived ∧ e'.handed.count liveNote = 2)) = true := by
    decide +kernel
  obtain ⟨n, hn, hstep⟩ := (Option.any_eq_true _ _).mp hrun
  obtain ⟨n', hn', hentry⟩ := (Option.any_eq_true _ _).mp hstep
  obtain ⟨e, he, hafter⟩ := (Option.any_eq_true _ _).mp hentry
  obtain ⟨e', he', hcounted⟩ := (Option.any_eq_true _ _).mp hafter
  obtain ⟨hpend, hdone, hwanted, htwice⟩ := of_decide_eq_true hcounted
  have honce := (along_append (h (processedThenRead ++ [.advance evening]))).2 n hn n' hn'
  have hcount := honce.1 n' hn' 0 _ e e' rfl he he' hpend hdone liveNote hwanted
  rw [htwice] at hcount
  revert hcount
  decide +kernel

end Runs

end GrowNode

end NostrSearch.Indexer
