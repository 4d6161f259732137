import NostrSearch.Lib.Patches
import NostrSearch.Stats.Registry

/-!
# Incremental report updates

A `Reporter` is an analysis with its `snapshot` and its `drain_delta`: the changes since the last
drain, as a merge patch over the snapshot. `DeltaExact` is the contract between the two, over any
sequence of observing, merging and draining from the default state.

The built-in analyses all keep it in one way. What they show is a view, a map from keys to values;
what they drain is the patch of the keys they have marked. `Tracked` is what has to be shown of
each: that a step marks what it changes. `Tracked.deltaExact` is the contract from it.
-/

namespace NostrSearch.Stats

open NostrSearch.Core NostrSearch.Lib

/-- An analysis that is merged, served and drained. Maps of the source that are gone through in
hash order leave open what `merge` returns. -/
structure Reporter (σ ε : Type) where
  analysis : DynAnalysis σ ε
  merge : σ → σ → σ → Prop
  snapshot : σ → Json
  drainDelta : σ → σ × Option Json

namespace Reporter

variable {σ ε : Type} (R : Reporter σ ε)

/-- The states of a partial, however it was put together. -/
inductive Reached : σ → Prop
  | default : Reached R.analysis.default
  | attach {s : σ} (ext : ε) (hs : Reached s) : Reached (R.analysis.attach ext s)
  | observe {s : σ} (ev : NostrEvent) (ctx : AnalysisCtx) (ext : ε) (hs : Reached s) :
      Reached (R.analysis.observe ev ctx ext s).1
  | merge {s other s' : σ} (hs : Reached s) (hother : Reached other)
      (h : R.merge s other s') : Reached s'
  | drain {s : σ} (hs : Reached s) : Reached (R.drainDelta s).1
  /-- a checkpoint of it, taken up again -/
  | restore {s : σ} (hs : Reached s) : Reached (R.analysis.restored s)

/-- The states after `s₀` up to the next drain. -/
inductive Undrained (s₀ : σ) : σ → Prop
  | refl : Undrained s₀ s₀
  | attach {s : σ} (ext : ε) (hs : Undrained s₀ s) : Undrained s₀ (R.analysis.attach ext s)
  | observe {s : σ} (ev : NostrEvent) (ctx : AnalysisCtx) (ext : ε) (hs : Undrained s₀ s) :
      Undrained s₀ (R.analysis.observe ev ctx ext s).1
  | merge {s other s' : σ} (hs : Undrained s₀ s) (hother : R.Reached other)
      (h : R.merge s other s') : Undrained s₀ s'

/-- A held snapshot after what was drained has been patched into it. -/
def applied (delta : Option Json) (held : Json) : Json :=
  delta.elim held fun patch => Json.mergePatch patch held

/-- The delta is the difference of two snapshots. -/
structure DeltaExact : Prop where
  /-- what is served is the same before and after a drain -/
  keeps : ∀ s, R.Reached s → R.snapshot (R.drainDelta s).1 = R.snapshot s
  /-- a snapshot from one drain, patched with the next delta, is the snapshot there -/
  next : ∀ s, R.Reached s → ∀ s', R.Undrained (R.drainDelta s).1 s' →
    applied (R.drainDelta s').2 (R.snapshot (R.drainDelta s).1) = R.snapshot (R.drainDelta s').1
  /-- a second drain has nothing -/
  quiet : ∀ s, R.Reached s → (R.drainDelta (R.drainDelta s).1).2 = none

/-- How a reporter keeps track of what it has to report. -/
structure Tracked where
  κ : Type
  β : Type
  [decEq : DecidableEq κ]
  format : Format κ β
  view : σ → View κ β
  dirty : σ → Finset κ
  Inv : σ → Prop
  snapshot_eq : ∀ s, R.snapshot s = format.view (view s)
  inv_default : Inv R.analysis.default
  view_default : ∀ k, view R.analysis.default k = none
  dirty_default : dirty R.analysis.default = ∅
  inv_restored : ∀ s, Inv s → Inv (R.analysis.restored s)
  dirty_restored : ∀ s, dirty (R.analysis.restored s) = ∅
  attach : ∀ s ext, Inv s → Inv (R.analysis.attach ext s) ∧
    format.Moves (dirty s) (view s) (dirty (R.analysis.attach ext s))
      (view (R.analysis.attach ext s))
  observe : ∀ s ev ctx ext, Inv s → Inv (R.analysis.observe ev ctx ext s).1 ∧
    format.Moves (dirty s) (view s) (dirty (R.analysis.observe ev ctx ext s).1)
      (view (R.analysis.observe ev ctx ext s).1)
  merge : ∀ s other s', Inv s → Inv other → R.merge s other s' → Inv s' ∧
    format.Moves (dirty s) (view s) (dirty s') (view s')
  inv_drain : ∀ s, Inv s → Inv (R.drainDelta s).1
  view_drain : ∀ s, view (R.drainDelta s).1 = view s
  dirty_drain : ∀ s, dirty (R.drainDelta s).1 = ∅
  drain_clean : ∀ s, dirty s = ∅ → (R.drainDelta s).2 = none
  drain_dirty : ∀ s, Inv s → dirty s ≠ ∅ → ∃ patch, (R.drainDelta s).2 = some patch ∧
    format.Spells patch (Layout.changes (dirty s) (view s))

namespace Tracked

variable {R} (t : R.Tracked)

instance : DecidableEq t.κ := t.decEq

theorem inv_reached {s : σ} (hs : R.Reached s) : t.Inv s := by
  induction hs with
  | default => exact t.inv_default
  | attach ext _ ih => exact (t.attach _ ext ih).1
  | observe ev ctx ext _ ih => exact (t.observe _ ev ctx ext ih).1
  | merge _ _ h ih ihother => exact (t.merge _ _ _ ih ihother h).1
  | drain _ ih => exact t.inv_drain _ ih
  | restore _ ih => exact t.inv_restored _ ih

/-- Up to the next drain, whatever tracked the view still tracks it. -/
theorem tracks_undrained {s₀ s : σ} {shown : View t.κ t.β} (h₀ : t.Inv s₀)
    (htracks : t.format.Tracks (t.dirty s₀) shown (t.view s₀)) (hs : R.Undrained s₀ s) :
    t.Inv s ∧ t.format.Tracks (t.dirty s) shown (t.view s) := by
  induction hs with
  | refl => exact ⟨h₀, htracks⟩
  | attach ext _ ih =>
    have hstep := t.attach _ ext ih.1
    exact ⟨hstep.1, ih.2.moves hstep.2⟩
  | observe ev ctx ext _ ih =>
    have hstep := t.observe _ ev ctx ext ih.1
    exact ⟨hstep.1, ih.2.moves hstep.2⟩
  | merge _ hother h ih =>
    have hstep := t.merge _ _ _ ih.1 (t.inv_reached hother) h
    exact ⟨hstep.1, ih.2.moves hstep.2⟩

/-- What tracks a view is brought up to it by the next delta. -/
theorem applied_drain {s : σ} {shown : View t.κ t.β} (hs : t.Inv s)
    (htracks : t.format.Tracks (t.dirty s) shown (t.view s)) :
    applied (R.drainDelta s).2 (t.format.view shown) = t.format.view (t.view s) := by
  by_cases hdirty : t.dirty s = ∅
  · rw [t.drain_clean s hdirty]
    show t.format.view shown = t.format.view (t.view s)
    congr 1
    funext k
    apply htracks.outside
    rw [hdirty]
    exact Finset.notMem_empty k
  · obtain ⟨patch, hpatch, hspells⟩ := t.drain_dirty s hs hdirty
    rw [hpatch]
    show Json.mergePatch patch (t.format.view shown) = t.format.view (t.view s)
    rw [hspells, Layout.patched_changes htracks]

theorem deltaExact (t : R.Tracked) : R.DeltaExact := by
  constructor
  · intro s _
    rw [t.snapshot_eq, t.snapshot_eq, t.view_drain]
  · intro s hs s' hs'
    have hinv : t.Inv (R.drainDelta s).1 := t.inv_drain s (t.inv_reached hs)
    obtain ⟨hinv', htracks⟩ := t.tracks_undrained hinv (Layout.Tracks.refl _ _) hs'
    rw [t.snapshot_eq, t.snapshot_eq, t.view_drain s']
    exact t.applied_drain hinv' htracks
  · intro s _
    exact t.drain_clean _ (t.dirty_drain s)

end Tracked

end Reporter

end NostrSearch.Stats
