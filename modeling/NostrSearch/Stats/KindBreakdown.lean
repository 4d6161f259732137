import NostrSearch.Lib.Buckets
import NostrSearch.Stats.Counter
import NostrSearch.Stats.Registry

/-!
# Events by kind

How many events there are of each kind, by the trust of their authors. A filter leaves out the
authors below its thresholds.
-/

namespace NostrSearch.Stats

open NostrSearch.Core NostrSearch.Lib

/-- The followers and the tier an author needs. -/
structure PublisherFilter where
  minFollowers : ℕ
  minWotTier : ℕ

/-- Does the current event's author clear the thresholds? -/
def PublisherFilter.allows (f : PublisherFilter) (ctx : AnalysisCtx) : Bool :=
  decide (f.minFollowers ≤ ctx.world.followerCount ctx.author) &&
    decide (f.minWotTier ≤ ctx.world.wotTier ctx.author)

structure KindBreakdown where
  counts : Finmap (fun _ : ℕ => TrustedCount)
  filter : Option PublisherFilter

namespace KindBreakdown

def default : KindBreakdown := { counts := ∅, filter := none }

/-- Only count events whose author clears the filter. -/
def filtered (f : PublisherFilter) : KindBreakdown := { counts := ∅, filter := some f }

def deps (s : KindBreakdown) : List String := if s.filter.isSome then ["follow_graph"] else []

/-- Whether the filter, if there is one, lets the event through. -/
def allows (ctx : AnalysisCtx) (s : KindBreakdown) : Bool := s.filter.all fun f => f.allows ctx

def observe (ev : NostrEvent) (ctx : AnalysisCtx) (s : KindBreakdown) : KindBreakdown × Bool :=
  if s.allows ctx then
    ({ s with counts := atEntry s.counts ev.kind {} fun c => c.incr ctx.authorTrusted 1 }, true)
  else (s, false)

def merge (s other : KindBreakdown) : KindBreakdown :=
  { s with counts := absorb s.counts {} TrustedCount.merge other.counts }

/-- `kind_breakdown` as the registry sees it, when it is registered without a filter. -/
def analysis {ε : Type} : DynAnalysis KindBreakdown ε where
  name := "kind_breakdown"
  epoch := 0
  deps := default.deps
  refreshInterval := none
  kinds := none
  default := default
  attach := fun _ s => s
  observe := fun ev ctx ext s => ((observe ev ctx s).1, ext, (observe ev ctx s).2)
  refresh := fun _ s => s
  contribute := fun _ w => w
  onReset := fun _ ext => ext
  restored := fun s => s

/-- The count of a kind, zero when there is none. -/
def count (s : KindBreakdown) (kind : ℕ) : TrustedCount := (s.counts.lookup kind).getD {}

/-- An event counts for its kind, if the filter lets it through, and for no other. -/
theorem count_observe (ev : NostrEvent) (ctx : AnalysisCtx) (s : KindBreakdown) (kind : ℕ) :
    (observe ev ctx s).1.count kind =
      if s.allows ctx ∧ kind = ev.kind then (s.count kind).incr ctx.authorTrusted 1
      else s.count kind := by
  unfold observe
  by_cases hallows : s.allows ctx = true
  · rw [if_pos hallows]
    by_cases hkind : kind = ev.kind
    · rw [if_pos ⟨hallows, hkind⟩, hkind, count, lookup_atEntry_self]
      rfl
    · rw [if_neg fun h => hkind h.2, count, lookup_atEntry_of_ne hkind]
      rfl
  · rw [if_neg hallows, if_neg fun h => hallows h.1]

end KindBreakdown

end NostrSearch.Stats
