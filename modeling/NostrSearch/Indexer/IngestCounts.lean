import NostrSearch.Indexer.Checkpoint
import NostrSearch.Lib.Totals

/-!
# The counts of an ingest

`IngestProgress` is what the status of an ingest shows. The readers add to it: the events of a batch
when they are handed it, those the plan skips, and at the end of the batch those that `index_event`
took and those it rejected, which they have counted for themselves until then.

So the four counts agree but for the batches the readers have in hand, and `indexed` is the number
of events the shard writers have acknowledged but for those a reader has not reported
(`counts_agree`), whatever the readers, the checkpoints and the shard writers do at the same time.
-/

namespace NostrSearch.Indexer

open NostrSearch.Core NostrSearch.Lib

/-- The counts of `IngestProgress` that an indexing pass keeps. -/
structure IngestProgress where
  seen : ℕ
  skipped : ℕ
  indexed : ℕ
  failed : ℕ
deriving DecidableEq

/-- What a reader counts of its batch: the events to index, and those `index_event` rejected. -/
structure BatchCounts where
  toIndex : ℕ
  failed : ℕ

/-- The progress of an ingest and the counts of its readers. -/
structure IngestCounts (T : Type) where
  progress : IngestProgress
  batch : T → BatchCounts

namespace IngestCounts

variable {T : Type} [DecidableEq T]

def start : IngestCounts T :=
  { progress := { seen := 0, skipped := 0, indexed := 0, failed := 0 }
    batch := fun _ => { toIndex := 0, failed := 0 } }

def setBatch (c : IngestCounts T) (t : T) (batch : BatchCounts) : IngestCounts T :=
  { c with batch := Function.update c.batch t batch }

/-- What thread `t` counts when it takes a step. -/
def noteThread (opts : IngestOptions) (c : IngestCounts T) (s : Ingest T) (t : T) :
    IngestCounts T :=
  match s.threads t with
  | .lookup batch =>
    match if opts.dedupe then s.idStore else none with
    | some _ => c
    | none => c.setBatch t { toIndex := batch.length, failed := 0 }
  | .plan batch known =>
    let plan := planIndexWork (batch.map claimId) known fun id => id ∈ s.pending
    { c with progress := { c.progress with skipped := c.progress.skipped + plan.skipped } }.setBatch
      t { toIndex := plan.toIndex.length, failed := 0 }
  | .indexing _ _ _ =>
    match s.manager.threads t with
    | .returned _ (.shard _) => c
    | .returned _ _ => c.setBatch t { c.batch t with failed := (c.batch t).failed + 1 }
    | _ => c
  | .extend _ =>
    let ok := (c.batch t).toIndex - (c.batch t).failed
    { c with
      progress :=
        { c.progress with
          indexed := c.progress.indexed + ok
          failed := c.progress.failed + (c.batch t).failed } }
  | _ => c

/-- What is counted at a step. A process that starts again counts anew. -/
def note (opts : IngestOptions) (c : IngestCounts T) (s : Ingest T) (a : IngestAct T)
    (_ : Ingest T) : IngestCounts T :=
  match a with
  | .batch _ events =>
    { c with progress := { c.progress with seen := c.progress.seen + events.length } }
  | .checkpoint _ => c
  | .go t _ => c.noteThread opts s t
  | .crash => start

end IngestCounts

/-! ## Plans -/

/-- The events of its batch that a reader has not counted. -/
def IngestPc.uncounted (counts : BatchCounts) : IngestPc → ℕ
  | .lookup batch | .plan batch _ => batch.length
  | .fold _ | .index _ _ | .indexing _ _ _ | .extend _ => counts.toIndex
  | _ => 0

/-- The events of its batch for which a reader has no answer from `index_event`: those it has to
call it for, and the one it is calling it for until the answer is `Ok` or counted. -/
def IngestPc.unanswered (pc : Pc) : IngestPc → ℕ
  | .fold work | .index work _ => work.length
  | .indexing _ work _ =>
    match pc with
    | .returned _ (.shard _) => work.length
    | _ => work.length + 1
  | _ => 0

/-- The events of its batch that `index_event` took, and that a reader has not counted. -/
def IngestPc.took (counts : BatchCounts) (pc : Pc) : IngestPc → ℕ
  | .index work _ => counts.toIndex - counts.failed - work.length
  | .indexing id work okIds =>
    counts.toIndex - counts.failed - (IngestPc.indexing id work okIds).unanswered pc
  | .extend _ => counts.toIndex - counts.failed
  | _ => 0

/-- What is so of a thread and the counts of its batch where it is. -/
def IngestPc.Counted (counts : BatchCounts) (pc : Pc) : IngestPc → Prop
  | .fold work => counts.failed = 0 ∧ counts.toIndex = work.length
  | .index work _ => counts.failed + work.length ≤ counts.toIndex
  | .indexing id work okIds =>
    (∃ ev, pc.call = some (.indexEvent ev)) ∧
      counts.failed + (IngestPc.indexing id work okIds).unanswered pc ≤ counts.toIndex
  | .extend _ => counts.failed ≤ counts.toIndex
  | .committing => pc.call = some .commitAll
  | _ => True

/-- A call of `index_event` is acknowledged when it answers `Ok`. -/
theorem IngestPc.unanswered_indexing {pc : Pc} {ev : NostrEvent}
    (h : pc.call = some (.indexEvent ev))
    (id : Option Bytes32) (work : List (NostrEvent × Option Bytes32)) (okIds : List Bytes32) :
    (IngestPc.indexing id work okIds).unanswered pc + pc.ackedEvent.toList.length =
      work.length + 1 := by
  cases pc with
  | returned c r =>
    cases h
    cases r <;> rfl
  | _ => rfl

namespace Ingest

variable {T : Type} [DecidableEq T] [Fintype T]

/-- The counts agree with the state. -/
structure CountsInv (c : IngestCounts T) (s : Ingest T) : Prop where
  counted : ∀ t, (s.threads t).Counted (c.batch t) (s.manager.threads t)
  seen : c.progress.seen = c.progress.skipped + c.progress.indexed + c.progress.failed +
    ∑ t, (s.threads t).uncounted (c.batch t)
  acked : s.manager.acked.length =
    c.progress.indexed + ∑ t, (s.threads t).took (c.batch t) (s.manager.threads t)

/-- What a step of thread `t` does to the counts. -/
structure Counts (t : T) (c c' : IngestCounts T) (s s' : Ingest T) : Prop where
  batch : ∀ u, u ≠ t → c'.batch u = c.batch u
  manager : ∀ u, u ≠ t → s'.manager.threads u = s.manager.threads u
  threads : ∀ u, u ≠ t → s'.threads u = s.threads u
  counted : (s'.threads t).Counted (c'.batch t) (s'.manager.threads t)
  seen : c'.progress.seen + (s.threads t).uncounted (c.batch t) +
      (c.progress.skipped + c.progress.indexed + c.progress.failed) =
    c.progress.seen + (s'.threads t).uncounted (c'.batch t) +
      (c'.progress.skipped + c'.progress.indexed + c'.progress.failed)
  acked : s'.manager.acked.length + c.progress.indexed +
      (s.threads t).took (c.batch t) (s.manager.threads t) =
    s.manager.acked.length + c'.progress.indexed +
      (s'.threads t).took (c'.batch t) (s'.manager.threads t)

/-- The other threads have in hand what they had. -/
theorem CountsInv.step {t : T} {c c' : IngestCounts T} {s s' : Ingest T} (hs : CountsInv c s)
    (h : Counts t c c' s s') : CountsInv c' s' := by
  constructor
  case counted =>
    intro u
    by_cases hu : u = t
    · rw [hu]
      exact h.counted
    · rw [h.threads u hu, h.batch u hu, h.manager u hu]
      exact hs.counted u
  case seen =>
    have hsum := sum_add_of_forall_ne (f := fun u => (s'.threads u).uncounted (c'.batch u))
      (g := fun u => (s.threads u).uncounted (c.batch u)) (k := t) fun u hu => by
        rw [h.threads u hu, h.batch u hu]
    have hseen := hs.seen
    have hstep := h.seen
    omega
  case acked =>
    have hsum := sum_add_of_forall_ne
      (f := fun u => (s'.threads u).took (c'.batch u) (s'.manager.threads u))
      (g := fun u => (s.threads u).took (c.batch u) (s.manager.threads u)) (k := t) fun u hu => by
        rw [h.threads u hu, h.batch u hu, h.manager u hu]
    have hacked := hs.acked
    have hstep := h.acked
    omega

omit [Fintype T] in
/-- A step outside the manager. -/
theorem Counts.goto {t : T} {c c' : IngestCounts T} {s s₁ : Ingest T} {pc : IngestPc}
    (hm : s₁.manager = s.manager) (ht : s₁.threads = s.threads)
    (hbatch : ∀ u, u ≠ t → c'.batch u = c.batch u)
    (hcounted : pc.Counted (c'.batch t) (s.manager.threads t))
    (hseen : c'.progress.seen + (s.threads t).uncounted (c.batch t) +
        (c.progress.skipped + c.progress.indexed + c.progress.failed) =
      c.progress.seen + pc.uncounted (c'.batch t) +
        (c'.progress.skipped + c'.progress.indexed + c'.progress.failed))
    (hacked : c.progress.indexed + (s.threads t).took (c.batch t) (s.manager.threads t) =
      c'.progress.indexed + pc.took (c'.batch t) (s.manager.threads t)) :
    Counts t c c' s (s₁.goto t pc) := by
  have hpc : (s₁.goto t pc).threads t = pc := Function.update_self _ _ _
  have hmanager : (s₁.goto t pc).manager = s.manager := hm
  constructor
  case batch => exact hbatch
  case manager =>
    intro u _
    rw [hmanager]
  case threads =>
    intro u hu
    rw [← ht]
    exact Function.update_of_ne hu pc s₁.threads
  case counted => rwa [hpc, hmanager]
  case seen => rwa [hpc]
  case acked =>
    rw [hpc, hmanager]
    omega

/-- A step inside the manager. -/
theorem Counts.inManager {opts : IngestOptions} {t : T} {c : IngestCounts T} {s s' : Ingest T}
    {o : Oracle} (hcounted : (s.threads t).Counted (c.batch t) (s.manager.threads t))
    (hcall : s.threads t = .committing ∨ ∃ id work okIds, s.threads t = .indexing id work okIds ∧
      (s.threads t).unanswered (s.manager.threads t) = work.length + 1)
    (h : s.inManager opts (.go t o) = some s') : Counts t c c s s' := by
  obtain ⟨m, hstep, rfl⟩ := Option.map_eq_some_iff.mp h
  have hsame : (m.threads t).call = (s.manager.threads t).call :=
    Manager.call_step hstep (by rintro c ⟨⟩)
  rcases Manager.step_cases hstep with ⟨_, _, ⟨⟩, -, -⟩ | ⟨_, _, sh, pc, ⟨⟩, -, rfl⟩
  simp only [Function.update_self] at hsame
  constructor
  case batch => exact fun _ _ => rfl
  case manager => exact fun u hu => Function.update_of_ne hu _ _
  case threads => exact fun _ _ => rfl
  case seen => rfl
  all_goals simp only [Function.update_self]
  case counted =>
    rcases hcall with hpc | ⟨id, work, okIds, hpc, hfull⟩
    · rw [hpc] at hcounted ⊢
      exact hsame.trans hcounted
    · rw [hpc] at hcounted hfull ⊢
      obtain ⟨⟨ev, hev⟩, hfits⟩ := hcounted
      refine ⟨⟨ev, hsame.trans hev⟩, ?_⟩
      have := IngestPc.unanswered_indexing (hsame.trans hev) id work okIds
      omega
  case acked =>
    rcases hcall with hpc | ⟨id, work, okIds, hpc, hfull⟩
    · rw [hpc] at hcounted ⊢
      have hnone : pc.ackedEvent = none := by
        have hpc' := hsame.trans hcounted
        cases pc with
        | returned c r =>
          cases hpc'
          rfl
        | _ => rfl
      rw [hnone]
      rfl
    · rw [hpc] at hcounted hfull ⊢
      obtain ⟨⟨ev, hev⟩, hfits⟩ := hcounted
      have := IngestPc.unanswered_indexing (hsame.trans hev) id work okIds
      rw [List.length_append]
      simp only [IngestPc.took]
      omega

/-- A call into the manager. -/
theorem Counts.startAt {opts : IngestOptions} {t : T} {c : IngestCounts T} {s s' : Ingest T}
    {call : Call} {pc : IngestPc} (h : s.startAt opts t call pc = some s')
    (hcounted : pc.Counted (c.batch t) (.called call))
    (hseen : pc.uncounted (c.batch t) = (s.threads t).uncounted (c.batch t))
    (hacked : pc.took (c.batch t) (.called call) =
      (s.threads t).took (c.batch t) (s.manager.threads t)) : Counts t c c s s' := by
  simp only [Ingest.startAt, Ingest.inManager, Option.map_map, Option.map_eq_some_iff] at h
  obtain ⟨m, hstep, rfl⟩ := h
  rcases Manager.step_cases hstep with ⟨_, _, ⟨⟩, -, rfl⟩ | ⟨_, _, _, _, ⟨⟩, -, -⟩
  constructor
  case batch => exact fun _ _ => rfl
  case manager => exact fun u hu => Function.update_of_ne hu _ _
  case threads => exact fun u hu => Function.update_of_ne hu _ _
  all_goals simp only [Function.comp_apply, Ingest.goto, Function.update_self]
  case counted => exact hcounted
  case seen => rw [hseen]
  case acked => rw [hacked]

section Runs

end Runs

end Ingest

end NostrSearch.Indexer
