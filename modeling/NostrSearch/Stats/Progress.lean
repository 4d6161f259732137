import NostrSearch.Stats.Types

/-!
# Per-analysis resumable progress

Every analysis has its own watermark, its own count-once id set and its own position in an
archive rebuild. `shouldConsume` is the gate of the ordered (live) path; `advance` and
`advanceBounded` record a consumed event.

The boundary set is a `Finset`, and the refresh timings of the counters are left out.
-/

namespace NostrSearch.Stats

open NostrSearch.Core

/-- How far below the watermark an event may arrive and still be folded. -/
def liveLagSecs : ℕ := 6 * 3600

/-- Cap on the count-once id set. -/
def maxBoundary : ℕ := 200000

/-- Where one analysis has reached in a rebuild over the archive. -/
structure Rebuild where
  /-- dumps this analysis has folded in full -/
  completed : List String := []
  /-- dump in progress, if any -/
  file : String := ""
  /-- id of the last event folded from `file` -/
  lastId : String := ""
deriving DecidableEq

namespace Rebuild

/-- Whether `file` still needs folding into this analysis. -/
def needs (r : Rebuild) (file : String) : Bool := decide (file ∉ r.completed)

/-- Record a folded event. -/
def advance (r : Rebuild) (file id : String) : Rebuild :=
  { r with file := file, lastId := id }

/-- Mark `file` fully folded. -/
def finish (r : Rebuild) (file : String) : Rebuild :=
  let completed := if r.needs file then r.completed ++ [file] else r.completed
  if r.file = file then { completed := completed, file := "", lastId := "" }
  else { r with completed := completed }

@[simp] theorem needs_iff {r : Rebuild} {file : String} :
    r.needs file = true ↔ file ∉ r.completed := by
  simp [needs]

theorem mem_completed_finish {r : Rebuild} {file f : String} :
    f ∈ (r.finish file).completed ↔ f ∈ r.completed ∨ f = file := by
  have hcompleted : (r.finish file).completed =
      if r.needs file then r.completed ++ [file] else r.completed := by
    unfold finish
    by_cases hf : r.file = file
    · rw [if_pos hf]
    · rw [if_neg hf]
  rw [hcompleted]
  by_cases h : file ∈ r.completed
  · rw [if_neg (by simpa using h)]
    constructor
    · exact Or.inl
    · rintro (hf | rfl)
      · exact hf
      · exact h
  · rw [if_pos (by simpa using h), List.mem_append, List.mem_singleton]

end Rebuild

/-- Cumulative observability counters. -/
structure Counters where
  observed : ℕ := 0
  consumed : ℕ := 0
  filtered : ℕ := 0
  refreshCount : ℕ := 0
deriving DecidableEq

/-- How far a single analysis has consumed the corpus. -/
structure Progress where
  epoch : ℕ
  /-- highest `created_at` consumed -/
  watermark : ℕ
  /-- ids consumed in the lag window -/
  boundary : Finset EventId
  /-- total events folded so far -/
  events : ℕ
  /-- whether the initial full backfill scan has completed -/
  backfilled : Bool
  /-- wall clock of the last `refresh` -/
  lastRefreshWall : ℕ
  counters : Counters
  rebuild : Rebuild

namespace Progress

def fresh (epoch : ℕ) : Progress :=
  { epoch := epoch, watermark := 0, boundary := ∅, events := 0, backfilled := false,
    lastRefreshWall := 0, counters := {}, rebuild := {} }

/-- Record that `(createdAt, id)` was consumed, advancing the watermark. A full id set is
cleared wholesale. -/
def advance (p : Progress) (createdAt : ℕ) (id : EventId) : Progress :=
  { p with
    watermark := max p.watermark createdAt
    boundary := insert id (if maxBoundary ≤ p.boundary.card then ∅ else p.boundary)
    events := p.events + 1 }

/-- Advance the watermark, ignoring timestamps beyond `maxTs`. -/
def advanceBounded (p : Progress) (createdAt : ℕ) (id : EventId) (maxTs : ℕ) : Progress :=
  if maxTs < createdAt then { p with events := p.events + 1 } else p.advance createdAt id

/-- Pull a watermark that is implausibly far ahead back to `maxTs`. -/
def clampWatermark (p : Progress) (maxTs : ℕ) : Progress :=
  if maxTs < p.watermark then { p with watermark := maxTs, boundary := ∅ } else p

/-- Should this event be folded? -/
def shouldConsume (p : Progress) (createdAt : ℕ) (id : EventId) : Bool :=
  if wrapAdd createdAt liveLagSecs < p.watermark then false
  else if id ∈ p.boundary then false
  else true

theorem shouldConsume_iff {p : Progress} {createdAt : ℕ} {id : EventId} :
    p.shouldConsume createdAt id = true ↔
      p.watermark ≤ wrapAdd createdAt liveLagSecs ∧ id ∉ p.boundary := by
  unfold shouldConsume
  by_cases h : wrapAdd createdAt liveLagSecs < p.watermark
  · rw [if_pos h]
    simp [Nat.not_le.mpr h]
  · rw [if_neg h]
    by_cases hid : id ∈ p.boundary <;> simp [hid, Nat.not_lt.mp h]

theorem advanceBounded_of_lt (p : Progress) {createdAt maxTs : ℕ} (id : EventId)
    (h : maxTs < createdAt) :
    p.advanceBounded createdAt id maxTs = { p with events := p.events + 1 } := by
  rw [advanceBounded, if_pos h]

theorem advanceBounded_of_le (p : Progress) {createdAt maxTs : ℕ} (id : EventId)
    (h : createdAt ≤ maxTs) : p.advanceBounded createdAt id maxTs = p.advance createdAt id := by
  rw [advanceBounded, if_neg (Nat.not_lt.mpr h)]

@[simp] theorem backfilled_advanceBounded (p : Progress) (createdAt : ℕ) (id : EventId)
    (maxTs : ℕ) : (p.advanceBounded createdAt id maxTs).backfilled = p.backfilled := by
  unfold advanceBounded
  split <;> rfl

@[simp] theorem rebuild_advanceBounded (p : Progress) (createdAt : ℕ) (id : EventId)
    (maxTs : ℕ) : (p.advanceBounded createdAt id maxTs).rebuild = p.rebuild := by
  unfold advanceBounded
  split <;> rfl

end Progress

end NostrSearch.Stats
