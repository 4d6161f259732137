import NostrSearch.Lib.Buckets
import NostrSearch.Stats.Counter
import NostrSearch.Stats.Delta
import NostrSearch.Stats.Hll

/-!
# Active users

Distinct publishers by day, week and month, each counted with a sketch, and the trusted ones among
them with a parallel sketch. `len` is the estimate of a sketch, which is floating point in the
source and a parameter here.

The three maps of one length are a `Side`. `Side.Ok` is why what is marked and what is trusted
always has a bucket.
-/

namespace NostrSearch.Stats

open NostrSearch.Core NostrSearch.Lib

/-- The maps of the source, a sketch under the start of each bucket. -/
abbrev Sketches := Finmap (fun _ : ℕ => Hll)

structure ActiveUsers where
  daily : Sketches
  dailyTrusted : Sketches
  weekly : Sketches
  weeklyTrusted : Sketches
  monthly : Sketches
  monthlyTrusted : Sketches
  dirtyDaily : Finset ℕ
  dirtyWeekly : Finset ℕ
  dirtyMonthly : Finset ℕ

/-- Active-user counts for one bucket. -/
structure ActiveUsersBucket where
  start : ℕ
  users : TrustedCount

namespace ActiveUsersBucket

def json (b : ActiveUsersBucket) : Json :=
  Json.record [("start", .num b.start), ("users", b.users.json)]

theorem mergePatch_json (b b₀ : ActiveUsersBucket) : Json.mergePatch b.json b₀.json = b.json := by
  apply Json.mergePatch_record
  apply Json.RecordPatch.cons (by intro h; cases h) (Json.mergePatch_num _ _)
  apply Json.RecordPatch.cons (Json.record_ne_null _) (TrustedCount.mergePatch_json _ _)
  exact Json.RecordPatch.nil

/-- One bucket replaces another. -/
def layout : Layout ActiveUsersBucket :=
  Layout.replacing json (fun _ => Json.record_ne_null _) mergePatch_json

end ActiveUsersBucket

namespace ActiveUsers

def default : ActiveUsers :=
  { daily := ∅, dailyTrusted := ∅, weekly := ∅, weeklyTrusted := ∅, monthly := ∅
    monthlyTrusted := ∅, dirtyDaily := ∅, dirtyWeekly := ∅, dirtyMonthly := ∅ }

def unionInto (dst src : Sketches) : Sketches := absorb dst Hll.default Hll.merge src

/-- Count one bucket, splitting by its trusted subset. -/
def bucketAt (len : Hll → ℕ) (all trusted : Sketches) (start : ℕ) : Option ActiveUsersBucket :=
  (all.lookup start).map fun sketch =>
    let total := len sketch
    let t := ((trusted.lookup start).map len).getD 0
    { start := start, users := { trusted := t, untrusted := total - t } }

/-- `entry(start).or_default().insert(pk)`. -/
def insertAt (sketches : Sketches) (start : ℕ) (pk : Pubkey) : Sketches × Bool :=
  let sketch := (sketches.lookup start).getD Hll.default
  (sketches.insert start (sketch.insert pk), sketch.changes pk)

def observe (ev : NostrEvent) (ctx : AnalysisCtx) (s : ActiveUsers) : ActiveUsers × Bool :=
  if ev.usesThrowawayKey then (s, false)
  else
    let day := dayStart ev.createdAt
    let week := weekStart ev.createdAt
    let month := monthStart ev.createdAt
    let freshDay := insertAt s.daily day ctx.author
    let freshWeek := insertAt s.weekly week ctx.author
    let freshMonth := insertAt s.monthly month ctx.author
    let trusted := ctx.authorTrusted
    let trustDay :=
      if trusted then insertAt s.dailyTrusted day ctx.author else (s.dailyTrusted, false)
    let trustWeek :=
      if trusted then insertAt s.weeklyTrusted week ctx.author else (s.weeklyTrusted, false)
    let trustMonth :=
      if trusted then insertAt s.monthlyTrusted month ctx.author else (s.monthlyTrusted, false)
    ({ daily := freshDay.1
       dailyTrusted := trustDay.1
       weekly := freshWeek.1
       weeklyTrusted := trustWeek.1
       monthly := freshMonth.1
       monthlyTrusted := trustMonth.1
       dirtyDaily := if freshDay.2 || trustDay.2 then insert day s.dirtyDaily else s.dirtyDaily
       dirtyWeekly :=
        if freshWeek.2 || trustWeek.2 then insert week s.dirtyWeekly else s.dirtyWeekly
       dirtyMonthly :=
        if freshMonth.2 || trustMonth.2 then insert month s.dirtyMonthly else s.dirtyMonthly },
      freshDay.2 || freshWeek.2 || freshMonth.2)

def merge (s other : ActiveUsers) : ActiveUsers :=
  { dirtyDaily := s.dirtyDaily ∪ other.daily.keys
    dirtyWeekly := s.dirtyWeekly ∪ other.weekly.keys
    dirtyMonthly := s.dirtyMonthly ∪ other.monthly.keys
    monthly := unionInto s.monthly other.monthly
    monthlyTrusted := unionInto s.monthlyTrusted other.monthlyTrusted
    daily := unionInto s.daily other.daily
    dailyTrusted := unionInto s.dailyTrusted other.dailyTrusted
    weekly := unionInto s.weekly other.weekly
    weeklyTrusted := unionInto s.weeklyTrusted other.weeklyTrusted }

/-- The buckets of one length as JSON. -/
def buckets (len : Hll → ℕ) (all trusted : Sketches) : Json :=
  Keys.nat.obj fun start => (bucketAt len all trusted start).map ActiveUsersBucket.json

/-- `ActiveUsersReport`, as JSON. -/
def snapshot (len : Hll → ℕ) (s : ActiveUsers) : Json :=
  Json.record
    [("daily", buckets len s.daily s.dailyTrusted),
      ("weekly", buckets len s.weekly s.weeklyTrusted),
      ("monthly", buckets len s.monthly s.monthlyTrusted)]

/-- The marked buckets of one length: the fields of the patch object. -/
def changed (len : Hll → ℕ) (dirty : Finset ℕ) (all trusted : Sketches) (start : ℕ) :
    Option Json :=
  if start ∈ dirty then (bucketAt len all trusted start).map ActiveUsersBucket.json else none

/-- Whether that object has no fields. -/
def unchanged (len : Hll → ℕ) (dirty : Finset ℕ) (all trusted : Sketches) : Bool :=
  decide (∀ start ∈ dirty, (bucketAt len all trusted start).isNone)

def drainDelta (len : Hll → ℕ) (s : ActiveUsers) : ActiveUsers × Option Json :=
  if s.dirtyDaily = ∅ ∧ s.dirtyWeekly = ∅ ∧ s.dirtyMonthly = ∅ then (s, none)
  else
    let daily := if unchanged len s.dirtyDaily s.daily s.dailyTrusted then []
      else [("daily", Keys.nat.obj (changed len s.dirtyDaily s.daily s.dailyTrusted))]
    let weekly := if unchanged len s.dirtyWeekly s.weekly s.weeklyTrusted then []
      else [("weekly", Keys.nat.obj (changed len s.dirtyWeekly s.weekly s.weeklyTrusted))]
    let monthly := if unchanged len s.dirtyMonthly s.monthly s.monthlyTrusted then []
      else [("monthly", Keys.nat.obj (changed len s.dirtyMonthly s.monthly s.monthlyTrusted))]
    ({ s with dirtyDaily := ∅, dirtyWeekly := ∅, dirtyMonthly := ∅ },
      some (Json.record (daily ++ weekly ++ monthly)))

/-- `active_users` as the registry sees it. -/
def analysis {ε : Type} : DynAnalysis ActiveUsers ε where
  name := "active_users"
  epoch := 2
  deps := ["follow_graph"]
  refreshInterval := none
  kinds := none
  default := default
  attach := fun _ s => s
  observe := fun ev ctx ext s => ((observe ev ctx s).1, ext, (observe ev ctx s).2)
  refresh := fun _ s => s
  contribute := fun _ w => w
  onReset := fun _ ext => ext
  restored := fun s => { s with dirtyDaily := ∅, dirtyWeekly := ∅, dirtyMonthly := ∅ }

/-- What `active_users` reports. -/
def reporter {ε : Type} (len : Hll → ℕ) : Reporter ActiveUsers ε where
  analysis := analysis
  merge s other s' := s' = s.merge other
  snapshot := snapshot len
  drainDelta := drainDelta len

/-! ## One length of bucket -/

/-- The maps and the marks of one length. -/
structure Side where
  all : Sketches
  trusted : Sketches
  dirty : Finset ℕ

inductive Period
  | daily
  | weekly
  | monthly
deriving DecidableEq

instance : Fintype Period := ⟨{.daily, .weekly, .monthly}, fun p => by cases p <;> decide⟩

def side (s : ActiveUsers) : Period → Side
  | .daily => ⟨s.daily, s.dailyTrusted, s.dirtyDaily⟩
  | .weekly => ⟨s.weekly, s.weeklyTrusted, s.dirtyWeekly⟩
  | .monthly => ⟨s.monthly, s.monthlyTrusted, s.dirtyMonthly⟩

/-- The bucket a timestamp belongs to. -/
def Period.start : Period → ℕ → ℕ
  | .daily => dayStart
  | .weekly => weekStart
  | .monthly => monthStart

namespace Side

/-- Whether `observe` changes a sketch of this length. -/
def touched (s : Side) (start : ℕ) (pk : Pubkey) (isTrusted : Bool) : Bool :=
  (insertAt s.all start pk).2 ||
    (if isTrusted then insertAt s.trusted start pk else (s.trusted, false)).2

/-- What `observe` does to one length. -/
def observe (s : Side) (start : ℕ) (pk : Pubkey) (isTrusted : Bool) : Side :=
  { all := (insertAt s.all start pk).1
    trusted := (if isTrusted then insertAt s.trusted start pk else (s.trusted, false)).1
    dirty := if s.touched start pk isTrusted then insert start s.dirty else s.dirty }

/-- What `merge` does to it. -/
def merge (s other : Side) : Side :=
  { all := unionInto s.all other.all
    trusted := unionInto s.trusted other.trusted
    dirty := s.dirty ∪ other.all.keys }

/-- Whatever is marked or trusted has a bucket. -/
structure Ok (s : Side) : Prop where
  trusted : s.trusted.keys ⊆ s.all.keys
  dirty : s.dirty ⊆ s.all.keys

def view (len : Hll → ℕ) (s : Side) : View ℕ ActiveUsersBucket := bucketAt len s.all s.trusted

theorem keys_insertAt (m : Sketches) (start : ℕ) (pk : Pubkey) :
    (insertAt m start pk).1.keys = insert start m.keys := by
  ext k
  rw [Finmap.mem_keys, Finset.mem_insert, Finmap.mem_keys]
  exact Finmap.mem_insert

theorem lookup_insertAt_of_ne {m : Sketches} {start k : ℕ} {pk : Pubkey} (h : k ≠ start) :
    (insertAt m start pk).1.lookup k = m.lookup k := Finmap.lookup_insert_of_ne m h

/-- A key that does not change its sketch had one, and leaves it as it is. -/
theorem lookup_insertAt_of_not_fresh {m : Sketches} {start : ℕ} {pk : Pubkey}
    (h : (insertAt m start pk).2 = false) :
    (insertAt m start pk).1.lookup start = m.lookup start := by
  unfold insertAt at h ⊢
  dsimp only at h ⊢
  rw [Finmap.lookup_insert]
  cases hm : m.lookup start with
  | none =>
    rw [hm, Option.getD_none, Hll.changes_default] at h
    cases h
  | some sketch =>
    rw [hm, Option.getD_some] at h
    rw [Option.getD_some, Hll.insert_of_not_changes h]

theorem bucketAt_congr {len : Hll → ℕ} {all all' trusted trusted' : Sketches} {k : ℕ}
    (hall : all'.lookup k = all.lookup k) (htrusted : trusted'.lookup k = trusted.lookup k) :
    bucketAt len all trusted k = bucketAt len all' trusted' k := by
  unfold bucketAt
  rw [hall, htrusted]

theorem isSome_bucketAt {len : Hll → ℕ} {all trusted : Sketches} {k : ℕ} :
    (bucketAt len all trusted k).isSome = true ↔ k ∈ all.keys := by
  unfold bucketAt
  rw [Option.isSome_map, Finmap.lookup_isSome, Finmap.mem_keys]

variable {s other : Side}

theorem dirty_observe_subset (s : Side) (start : ℕ) (pk : Pubkey) (isTrusted : Bool) :
    s.dirty ⊆ (s.observe start pk isTrusted).dirty ∧
      (s.observe start pk isTrusted).dirty ⊆ insert start s.dirty := by
  have hdirty : (s.observe start pk isTrusted).dirty =
      if s.touched start pk isTrusted then insert start s.dirty else s.dirty := rfl
  rw [hdirty]
  by_cases h : s.touched start pk isTrusted = true
  · rw [if_pos h]
    exact ⟨Finset.subset_insert start s.dirty, Finset.Subset.refl _⟩
  · rw [if_neg h]
    exact ⟨Finset.Subset.refl _, Finset.subset_insert start s.dirty⟩

/-- A bucket that `observe` does not mark is not touched. -/
theorem not_touched {start : ℕ} {pk : Pubkey} {isTrusted : Bool}
    (h : start ∉ (s.observe start pk isTrusted).dirty) : s.touched start pk isTrusted = false := by
  cases htouched : s.touched start pk isTrusted with
  | false => rfl
  | true =>
    have hdirty : (s.observe start pk isTrusted).dirty = insert start s.dirty := if_pos htouched
    rw [hdirty] at h
    exact absurd (Finset.mem_insert_self start s.dirty) h

theorem ok_observe (hs : s.Ok) (start : ℕ) (pk : Pubkey) (isTrusted : Bool) :
    (s.observe start pk isTrusted).Ok := by
  have hall : (s.observe start pk isTrusted).all.keys = insert start s.all.keys :=
    keys_insertAt s.all start pk
  constructor
  · rw [hall]
    unfold observe
    cases isTrusted with
    | false => exact hs.trusted.trans (Finset.subset_insert start _)
    | true =>
      show (insertAt s.trusted start pk).1.keys ⊆ _
      rw [keys_insertAt]
      exact Finset.insert_subset_insert start hs.trusted
  · rw [hall]
    exact (s.dirty_observe_subset start pk isTrusted).2.trans
      (Finset.insert_subset_insert start hs.dirty)

theorem moves_observe (len : Hll → ℕ) (s : Side) (start : ℕ) (pk : Pubkey) (isTrusted : Bool) :
    ActiveUsersBucket.layout.Moves s.dirty (s.view len) (s.observe start pk isTrusted).dirty
      ((s.observe start pk isTrusted).view len) := by
  refine ⟨?_, ?_, fun _ _ _ _ _ => trivial⟩
  · exact (s.dirty_observe_subset start pk isTrusted).1
  · intro k hk
    unfold view
    by_cases hks : k = start
    · -- the bucket of the event, which is not marked: no sketch of it has changed
      subst hks
      have hfresh := Bool.or_eq_false_iff.mp (not_touched hk)
      apply bucketAt_congr
      · exact lookup_insertAt_of_not_fresh hfresh.1
      · cases isTrusted with
        | false => rfl
        | true => exact lookup_insertAt_of_not_fresh hfresh.2
    · apply bucketAt_congr
      · exact lookup_insertAt_of_ne hks
      · cases isTrusted with
        | false => rfl
        | true => exact lookup_insertAt_of_ne hks

theorem ok_merge (hs : s.Ok) (hother : other.Ok) : (s.merge other).Ok := by
  have hall : (s.merge other).all.keys = s.all.keys ∪ other.all.keys := keys_absorb
  have htrusted : (s.merge other).trusted.keys = s.trusted.keys ∪ other.trusted.keys :=
    keys_absorb
  constructor
  · rw [hall, htrusted]
    exact Finset.union_subset_union hs.trusted hother.trusted
  · rw [hall]
    exact Finset.union_subset_union hs.dirty (Finset.Subset.refl _)

theorem moves_merge (len : Hll → ℕ) (s : Side) (hother : other.Ok) :
    ActiveUsersBucket.layout.Moves s.dirty (s.view len) (s.merge other).dirty
      ((s.merge other).view len) := by
  refine ⟨Finset.subset_union_left, ?_, fun _ _ _ _ _ => trivial⟩
  intro k hk
  have hk' : k ∉ other.all.keys := fun h => hk (Finset.mem_union_right _ h)
  have hktrusted : k ∉ other.trusted.keys := fun h => hk' (hother.trusted h)
  rw [Finmap.mem_keys] at hk' hktrusted
  unfold view
  apply bucketAt_congr
  · exact lookup_absorb_of_notMem hk'
  · exact lookup_absorb_of_notMem hktrusted

end Side

/-! ## What is reported -/

theorem side_observe (ev : NostrEvent) (ctx : AnalysisCtx) (s : ActiveUsers) (p : Period) :
    (observe ev ctx s).1.side p =
      if ev.usesThrowawayKey then s.side p
      else (s.side p).observe (p.start ev.createdAt) ctx.author ctx.authorTrusted := by
  unfold observe
  split
  · rfl
  · cases p <;> rfl

theorem side_merge (s other : ActiveUsers) (p : Period) :
    (s.merge other).side p = (s.side p).merge (other.side p) := by
  cases p <;> rfl

theorem unchanged_iff {len : Hll → ℕ} {s : Side} (hs : s.Ok) :
    unchanged len s.dirty s.all s.trusted = true ↔ s.dirty = ∅ := by
  unfold unchanged
  rw [decide_eq_true_iff]
  constructor
  · intro h
    apply Finset.eq_empty_of_forall_notMem
    intro k hk
    have hsome : (bucketAt len s.all s.trusted k).isSome = true :=
      Side.isSome_bucketAt.mpr (hs.dirty hk)
    rw [Option.isNone_iff_eq_none.mp (h k hk)] at hsome
    cases hsome
  · intro h k hk
    rw [h] at hk
    exact absurd hk (Finset.notMem_empty k)

/-- What is marked is shown, so that the object drained is the patch of the marked keys. -/
theorem changed_eq {len : Hll → ℕ} {s : Side} (hs : s.Ok) :
    Keys.nat.obj (changed len s.dirty s.all s.trusted) =
      Keys.nat.patch ActiveUsersBucket.layout (Layout.changes s.dirty (s.view len)) := by
  have hshown : ∀ k ∈ s.dirty, (s.view len k).isSome = true := fun k hk =>
    Side.isSome_bucketAt.mpr (hs.dirty hk)
  rw [← Keys.obj_changed Keys.nat ActiveUsersBucket.layout hshown]
  rfl

def names : List (Period × String) :=
  [(.daily, "daily"), (.weekly, "weekly"), (.monthly, "monthly")]

def format : Format (Period × ℕ) ActiveUsersBucket :=
  Keys.nat.sections ActiveUsersBucket.layout names (by decide) fun p => by cases p <;> decide

/-- How `active_users` keeps track of what it has to report. -/
def tracked {ε : Type} (len : Hll → ℕ) :
    (reporter len : Reporter ActiveUsers ε).Tracked where
  κ := Period × ℕ
  β := ActiveUsersBucket
  format := format
  view s x := (s.side x.1).view len x.2
  dirty s := Keys.gather fun p => (s.side p).dirty
  Inv s := ∀ p, (s.side p).Ok
  snapshot_eq _ := rfl
  inv_default := by
    intro p
    show (default.side p).Ok
    have hempty : default.side p = ⟨∅, ∅, ∅⟩ := by cases p <;> rfl
    rw [hempty]
    exact ⟨Finset.Subset.refl _, Finset.empty_subset _⟩
  view_default := by
    rintro ⟨p, k⟩
    cases p <;> rfl
  dirty_default := by
    apply Keys.gather_eq_empty.mpr
    intro p
    cases p <;> rfl
  inv_restored s hs := by
    intro p
    cases p with
    | daily => exact ⟨(hs .daily).trusted, Finset.empty_subset _⟩
    | weekly => exact ⟨(hs .weekly).trusted, Finset.empty_subset _⟩
    | monthly => exact ⟨(hs .monthly).trusted, Finset.empty_subset _⟩
  dirty_restored s := by
    apply Keys.gather_eq_empty.mpr
    intro p
    cases p <;> rfl
  attach s _ hs := ⟨hs, Layout.Moves.refl _ _⟩
  observe s ev ctx _ hs := by
    have hside := side_observe ev ctx s
    refine ⟨?_, Keys.moves_gather ?_⟩
    · intro p
      show ((observe ev ctx s).1.side p).Ok
      rw [hside]
      split
      · exact hs p
      · exact Side.ok_observe (hs p) _ _ _
    · intro p
      show ActiveUsersBucket.layout.Moves (s.side p).dirty ((s.side p).view len)
        ((observe ev ctx s).1.side p).dirty (((observe ev ctx s).1.side p).view len)
      rw [hside]
      split
      · exact Layout.Moves.refl _ _
      · exact Side.moves_observe len _ _ _ _
  merge s other s' hs hother h := by
    have hs' : s' = s.merge other := h
    subst hs'
    have hside := side_merge s other
    refine ⟨?_, Keys.moves_gather ?_⟩
    · intro p
      rw [hside]
      exact Side.ok_merge (hs p) (hother p)
    · intro p
      dsimp only
      rw [hside]
      exact Side.moves_merge len _ (hother p)
  inv_drain s hs := by
    intro p
    show (((drainDelta len s).1).side p).Ok
    unfold drainDelta
    split
    · exact hs p
    · cases p with
      | daily => exact ⟨(hs .daily).trusted, Finset.empty_subset _⟩
      | weekly => exact ⟨(hs .weekly).trusted, Finset.empty_subset _⟩
      | monthly => exact ⟨(hs .monthly).trusted, Finset.empty_subset _⟩
  view_drain s := by
    funext x
    obtain ⟨p, k⟩ := x
    show (((drainDelta len s).1).side p).view len k = (s.side p).view len k
    unfold drainDelta
    split
    · rfl
    · cases p <;> rfl
  dirty_drain s := by
    apply Keys.gather_eq_empty.mpr
    intro p
    show (((drainDelta len s).1).side p).dirty = ∅
    unfold drainDelta
    split
    case isTrue h =>
      cases p with
      | daily => exact h.1
      | weekly => exact h.2.1
      | monthly => exact h.2.2
    case isFalse => cases p <;> rfl
  drain_clean s h := by
    have hdirty := Keys.gather_eq_empty.mp h
    show (drainDelta len s).2 = none
    unfold drainDelta
    rw [if_pos ⟨hdirty .daily, hdirty .weekly, hdirty .monthly⟩]
  drain_dirty s hs h := by
    have hdirty : ¬ (s.dirtyDaily = ∅ ∧ s.dirtyWeekly = ∅ ∧ s.dirtyMonthly = ∅) := by
      rintro ⟨hd, hw, hm⟩
      apply h
      apply Keys.gather_eq_empty.mpr
      intro p
      cases p with
      | daily => exact hd
      | weekly => exact hw
      | monthly => exact hm
    -- the sections that are left out are those with nothing marked
    have hkeep : ∀ p, (!unchanged len (s.side p).dirty (s.side p).all (s.side p).trusted) = false →
        ∀ k, Layout.changes (Keys.gather fun p => (s.side p).dirty)
          (fun x : Period × ℕ => (s.side x.1).view len x.2) (p, k) = none := by
      intro p hp k
      rw [Bool.not_eq_false', unchanged_iff (hs p)] at hp
      unfold Layout.changes
      rw [if_neg]
      rw [Keys.mem_gather, hp]
      exact Finset.notMem_empty k
    refine ⟨_, ?_, Keys.spells_sectionsPatch Keys.nat ActiveUsersBucket.layout names _ _
      _ hkeep⟩
    show (drainDelta len s).2 = _
    unfold drainDelta
    rw [if_neg hdirty, Keys.sectionsPatch]
    simp only [Keys.changes_gather, ← changed_eq (hs _)]
    -- which of the three are left out
    cases hd : unchanged len s.dirtyDaily s.daily s.dailyTrusted <;>
      cases hw : unchanged len s.dirtyWeekly s.weekly s.weeklyTrusted <;>
        cases hm : unchanged len s.dirtyMonthly s.monthly s.monthlyTrusted <;>
          simp [names, side, hd, hw, hm]

end ActiveUsers

end NostrSearch.Stats
