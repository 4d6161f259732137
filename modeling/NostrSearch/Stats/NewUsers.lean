import NostrSearch.Lib.Buckets
import NostrSearch.Stats.Counter
import NostrSearch.Stats.Delta
import NostrSearch.Stats.Graph

/-!
# New users

A pubkey is new on the day, and in the month, of the earliest event it is seen with. The
timestamps are in the `FirstSeen` store, which is written through; the counts by day and month
are the state of the analysis. An earlier event than the one stored moves a pubkey from its day
and month to the earlier ones.

Reads and writes of the store are taken to succeed, and counts do not overflow.
-/

namespace NostrSearch.Stats

open NostrSearch.Core NostrSearch.Lib

/-- The timestamp each pubkey was first seen with. -/
structure FirstSeen where
  db : Finmap (fun _ : Pubkey => ℕ)

namespace FirstSeen

def empty : FirstSeen := { db := ∅ }

def get (f : FirstSeen) (pk : Pubkey) : Option ℕ := f.db.lookup pk

def put (f : FirstSeen) (pk : Pubkey) (ts : ℕ) : FirstSeen := { db := f.db.insert pk ts }

/-- Every key is deleted, in the order of the database. -/
def clear (f : FirstSeen) : FirstSeen :=
  { db := (sortedKeys f.db).foldl (fun db k => db.erase k) f.db }

end FirstSeen

structure NewUsers where
  daily : Finmap (fun _ : ℕ => ℕ)
  monthly : Finmap (fun _ : ℕ => ℕ)
  /-- whether the first-seen store has been handed over -/
  attached : Bool
  dirtyDaily : Finset ℕ
  dirtyMonthly : Finset ℕ

namespace NewUsers

def default : NewUsers :=
  { daily := ∅, monthly := ∅, attached := false, dirtyDaily := ∅, dirtyMonthly := ∅ }

/-- One turn of the loop of `shift`. A count that is down to zero is removed. -/
def shiftSlot (map : Finmap fun _ : ℕ => ℕ) (key : ℕ) (delta : ℤ) : Finmap fun _ : ℕ => ℕ :=
  let slot := (max (((map.lookup key).getD 0 : ℤ) + delta) 0).toNat
  if slot = 0 then (map.insert key slot).erase key else map.insert key slot

def shift (s : NewUsers) (ts : ℕ) (delta : ℤ) : NewUsers :=
  { s with
    daily := shiftSlot s.daily (dayStart ts) delta
    dirtyDaily := insert (dayStart ts) s.dirtyDaily
    monthly := shiftSlot s.monthly (monthStart ts) delta
    dirtyMonthly := insert (monthStart ts) s.dirtyMonthly }

def attach (_store : FirstSeen) (s : NewUsers) : NewUsers := { s with attached := true }

def onReset (s : NewUsers) (store : FirstSeen) : FirstSeen :=
  if s.attached then store.clear else store

def observe (ev : NostrEvent) (ctx : AnalysisCtx) (store : FirstSeen) (s : NewUsers) :
    NewUsers × FirstSeen × Bool :=
  if ev.usesThrowawayKey then (s, store, false)
  else if s.attached then
    let ts := ev.createdAt
    match store.get ctx.author with
    | some prev =>
      if prev ≤ ts then (s, store, false)
      else ((s.shift prev (-1)).shift ts 1, store.put ctx.author ts, true)
    | none => (s.shift ts 1, store.put ctx.author ts, true)
  else (s, store, false)

/-- The store handle and the marks are not part of a checkpoint. -/
def restored (s : NewUsers) : NewUsers :=
  { s with attached := false, dirtyDaily := ∅, dirtyMonthly := ∅ }

/-- `new_users` as the registry sees it. -/
def analysis : DynAnalysis NewUsers FirstSeen where
  name := "new_users"
  epoch := 0
  deps := []
  refreshInterval := none
  kinds := none
  default := default
  attach := attach
  observe := observe
  refresh := fun _ s => s
  contribute := fun _ w => w
  onReset := onReset
  restored := restored

def merge (s other : NewUsers) : NewUsers :=
  { s with
    daily := absorb s.daily 0 wrapAdd other.daily
    dirtyDaily := s.dirtyDaily ∪ other.daily.keys
    monthly := absorb s.monthly 0 wrapAdd other.monthly
    dirtyMonthly := s.dirtyMonthly ∪ other.monthly.keys }

/-- `NewUsersReport`, as JSON. -/
def snapshot (s : NewUsers) : Json :=
  Json.record
    [("daily", Keys.nat.obj fun k => (s.daily.lookup k).map Json.num),
      ("monthly", Keys.nat.obj fun k => (s.monthly.lookup k).map Json.num)]

/-- The counts of the marked keys, `null` for one that was removed. -/
def side (dirty : Finset ℕ) (map : Finmap fun _ : ℕ => ℕ) : Json :=
  Keys.nat.obj fun k =>
    if k ∈ dirty then some (((map.lookup k).map Json.num).getD Json.null) else none

def drainDelta (s : NewUsers) : NewUsers × Option Json :=
  if s.dirtyDaily = ∅ ∧ s.dirtyMonthly = ∅ then (s, none)
  else
    ({ s with dirtyDaily := ∅, dirtyMonthly := ∅ },
      some (Json.record
        [("daily", side s.dirtyDaily s.daily), ("monthly", side s.dirtyMonthly s.monthly)]))

/-- What `new_users` reports. -/
def reporter : Reporter NewUsers FirstSeen where
  analysis := analysis
  merge s other s' := s' = s.merge other
  snapshot := snapshot
  drainDelta := drainDelta

/-! ## Moving a count -/

theorem lookup_shiftSlot_of_ne {map : Finmap fun _ : ℕ => ℕ} {key k : ℕ} {delta : ℤ}
    (h : k ≠ key) : (shiftSlot map key delta).lookup k = map.lookup k := by
  unfold shiftSlot
  dsimp only
  split
  · rw [Finmap.lookup_erase_ne h, Finmap.lookup_insert_of_ne _ h]
  · rw [Finmap.lookup_insert_of_ne _ h]

/-- What is counted under a key afterwards. -/
theorem lookup_shiftSlot_self (map : Finmap fun _ : ℕ => ℕ) (key : ℕ) (delta : ℤ) :
    ((shiftSlot map key delta).lookup key).getD 0 =
      (max (((map.lookup key).getD 0 : ℤ) + delta) 0).toNat := by
  unfold shiftSlot
  dsimp only
  split
  case isTrue hzero =>
    rw [Finmap.lookup_erase, Option.getD_none, hzero]
  case isFalse =>
    rw [Finmap.lookup_insert, Option.getD_some]

/-! ## What is reported -/

/-- The two halves of the report. -/
inductive Half
  | daily
  | monthly
deriving DecidableEq

instance : Fintype Half := ⟨{.daily, .monthly}, fun i => by cases i <;> decide⟩

def map (s : NewUsers) : Half → Finmap fun _ : ℕ => ℕ
  | .daily => s.daily
  | .monthly => s.monthly

def dirty (s : NewUsers) : Half → Finset ℕ
  | .daily => s.dirtyDaily
  | .monthly => s.dirtyMonthly

/-- What a step does to each half. -/
def Marks (s s' : NewUsers) : Prop :=
  ∀ i, Layout.num.Moves (s.dirty i) (s.map i).lookup (s'.dirty i) (s'.map i).lookup

theorem marks_refl (s : NewUsers) : s.Marks s := fun _ => Layout.Moves.refl _ _

theorem Marks.trans {s s' s'' : NewUsers} (h : s.Marks s') (h' : s'.Marks s'') : s.Marks s'' :=
  fun i => (h i).trans (h' i)

/-- Moving one count, and marking it. -/
theorem moves_shiftSlot (map : Finmap fun _ : ℕ => ℕ) (dirty : Finset ℕ) (key : ℕ) (delta : ℤ) :
    Layout.num.Moves dirty map.lookup (insert key dirty) (shiftSlot map key delta).lookup := by
  refine ⟨Finset.subset_insert key dirty, ?_, fun _ _ _ _ _ => trivial⟩
  intro k hk
  have hne : k ≠ key := fun h => hk (h ▸ Finset.mem_insert_self key dirty)
  rw [lookup_shiftSlot_of_ne hne]

theorem marks_shift (s : NewUsers) (ts : ℕ) (delta : ℤ) : s.Marks (s.shift ts delta) := by
  intro i
  cases i with
  | daily => exact moves_shiftSlot s.daily s.dirtyDaily (dayStart ts) delta
  | monthly => exact moves_shiftSlot s.monthly s.dirtyMonthly (monthStart ts) delta

theorem marks_observe (ev : NostrEvent) (ctx : AnalysisCtx) (store : FirstSeen) (s : NewUsers) :
    s.Marks (observe ev ctx store s).1 := by
  unfold observe
  split
  · exact s.marks_refl
  · split
    · dsimp only
      split
      · split
        · exact s.marks_refl
        -- moved from its old day to the earlier one
        · exact (s.marks_shift _ _).trans (marks_shift _ _ _)
      · exact s.marks_shift _ _
    · exact s.marks_refl

theorem marks_merge (s other : NewUsers) : s.Marks (s.merge other) := by
  have habsorb : ∀ (dirty : Finset ℕ) (m src : Finmap fun _ : ℕ => ℕ),
      Layout.num.Moves dirty m.lookup (dirty ∪ src.keys) (absorb m 0 wrapAdd src).lookup := by
    intro dirty m src
    refine ⟨Finset.subset_union_left, ?_, fun _ _ _ _ _ => trivial⟩
    intro k hk
    rw [Finset.mem_union, not_or, Finmap.mem_keys] at hk
    rw [lookup_absorb_of_notMem hk.2]
  intro i
  cases i with
  | daily => exact habsorb s.dirtyDaily s.daily other.daily
  | monthly => exact habsorb s.dirtyMonthly s.monthly other.monthly

theorem side_eq (dirty : Finset ℕ) (m : Finmap fun _ : ℕ => ℕ) :
    side dirty m = Keys.nat.patch Layout.num (Layout.changes dirty m.lookup) := by
  unfold side Keys.patch
  congr 1
  funext k
  unfold Layout.changes
  split
  · show some (((m.lookup k).map Json.num).getD Json.null) =
      some ((m.lookup k).elim Json.null Json.num)
    cases m.lookup k with
    | none => rfl
    | some n => rfl
  · rfl

def names : List (Half × String) := [(.daily, "daily"), (.monthly, "monthly")]

def format : Format (Half × ℕ) ℕ :=
  Keys.nat.sections Layout.num names (by decide) fun i => by cases i <;> decide

/-- How `new_users` keeps track of what it has to report. -/
def tracked : reporter.Tracked where
  κ := Half × ℕ
  β := ℕ
  format := format
  view s x := (s.map x.1).lookup x.2
  dirty s := Keys.gather s.dirty
  Inv _ := True
  snapshot_eq _ := rfl
  inv_default := trivial
  view_default := by
    rintro ⟨i, k⟩
    cases i <;> rfl
  dirty_default := by
    apply Keys.gather_eq_empty.mpr
    intro i
    cases i <;> rfl
  inv_restored _ _ := trivial
  dirty_restored s := by
    apply Keys.gather_eq_empty.mpr
    intro i
    cases i <;> rfl
  attach s _ _ := ⟨trivial, Keys.moves_gather fun i => by cases i <;> exact s.marks_refl _⟩
  observe s ev ctx store _ := ⟨trivial, Keys.moves_gather (marks_observe ev ctx store s)⟩
  merge s other s' _ _ h := by
    have hs' : s' = s.merge other := h
    subst hs'
    exact ⟨trivial, Keys.moves_gather (s.marks_merge other)⟩
  inv_drain _ _ := trivial
  view_drain s := by
    show (fun x : Half × ℕ => (s.drainDelta.1.map x.1).lookup x.2) = _
    unfold drainDelta
    split
    · rfl
    · funext x
      obtain ⟨i, k⟩ := x
      cases i <;> rfl
  dirty_drain s := by
    apply Keys.gather_eq_empty.mpr
    show ∀ i, s.drainDelta.1.dirty i = ∅
    unfold drainDelta
    intro i
    split
    case isTrue h =>
      cases i with
      | daily => exact h.1
      | monthly => exact h.2
    case isFalse => cases i <;> rfl
  drain_clean s h := by
    have hdirty := Keys.gather_eq_empty.mp h
    show s.drainDelta.2 = none
    unfold drainDelta
    rw [if_pos ⟨hdirty .daily, hdirty .monthly⟩]
  drain_dirty s _ h := by
    have hdirty : ¬ (s.dirtyDaily = ∅ ∧ s.dirtyMonthly = ∅) := by
      rintro ⟨hd, hm⟩
      apply h
      apply Keys.gather_eq_empty.mpr
      intro i
      cases i with
      | daily => exact hd
      | monthly => exact hm
    refine ⟨_, ?_, Keys.spells_sectionsPatch Keys.nat Layout.num names _ _ (fun _ => true) (fun _ h => by cases h)⟩
    show s.drainDelta.2 = _
    unfold drainDelta
    rw [if_neg hdirty, side_eq, side_eq, Keys.sectionsPatch]
    simp only [Keys.changes_gather]
    rfl

end NewUsers

end NostrSearch.Stats
