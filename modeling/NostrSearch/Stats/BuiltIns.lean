import NostrSearch.Lib.Faults
import NostrSearch.Stats.Activity
import NostrSearch.Stats.ActiveUsers
import NostrSearch.Stats.Clients
import NostrSearch.Stats.FollowGraph
import NostrSearch.Stats.KindBreakdown
import NostrSearch.Stats.NewUsers
import NostrSearch.Stats.Pagerank
import NostrSearch.Stats.Relays
import NostrSearch.Stats.Trending

/-!
# The analyses of one registry

The analyses that come with the program, as values of one type: a state with the `BuiltIn` it is a
state of. What is called on a state is what that analysis does. They share the follow graph and the
store of the timestamps that pubkeys were first seen with.

Counts are words here: `follow_graph` has them in 32 bits and `new_users` adds to them as signed
numbers, so that their `observe` says what becomes of a count that does not fit. Where they do fit,
both are as they are modelled on their own (`FollowGraph.observeWord_eq`,
`NewUsers.observeWord_eq`).
-/

namespace NostrSearch.Stats

open NostrSearch.Core NostrSearch.Lib

/-! ## Counts as words -/

/-- A number as an `i64` that wraps around. -/
def wrapI64 (z : ℤ) : ℤ := asI64 (z % 2 ^ 64).toNat

theorem wrapI64_eq {z : ℤ} (h : -2 ^ 63 ≤ z) (h' : z < 2 ^ 63) : wrapI64 z = z := by
  unfold wrapI64 asI64
  rcases lt_or_ge z 0 with hneg | hpos
  · have hmod : z % 2 ^ 64 = z + 2 ^ 64 := by omega
    rw [hmod, if_neg (by omega)]
    omega
  · rw [Int.emod_eq_of_lt hpos (by omega), if_pos (by omega)]
    omega

namespace FollowGraph

/-- `apply_delta`, of counts of 32 bits. -/
def applyDeltaWord (s : FollowGraph) (followed : List Pubkey) (delta : ℤ) : FollowGraph :=
  followed.foldl (fun s p => s.setCount p (bump delta (s.count p % 2 ^ 32))) s

/-- `observe`, of counts of 32 bits. -/
def observeWord (ev : NostrEvent) (graph : GraphStore) (s : FollowGraph) :
    FollowGraph × GraphStore × Bool :=
  match Hash32.fromHex ev.pubkey with
  | none => (s, graph, false)
  | some author =>
    if s.attached then
      if newer graph author ev then
        let s :=
          match graph.get author with
          | some old => s.applyDeltaWord old.follows (-1)
          | none => s
        (s.applyDeltaWord (newFollows ev) 1, graph.put author ev.createdAt (newFollows ev), true)
      else (s, graph, false)
    else (s, graph, false)

/-- Every count fits in 32 bits. -/
def Fits32 (s : FollowGraph) : Prop := ∀ p, s.count p < 2 ^ 32

theorem Fits32.setCount {s : FollowGraph} (h : s.Fits32) (p : Pubkey) {c : ℕ} (hc : c < 2 ^ 32) :
    (s.setCount p c).Fits32 := by
  intro q
  show ((s.counts.insert p c).lookup q).getD 0 < 2 ^ 32
  by_cases hq : q = p
  · rw [hq, Finmap.lookup_insert]
    exact hc
  · rw [Finmap.lookup_insert_of_ne _ hq]
    exact h q

theorem applyDeltaWord_eq {s : FollowGraph} (h : s.Fits32) (followed : List Pubkey) (delta : ℤ) :
    s.applyDeltaWord followed delta = s.applyDelta followed delta ∧
      (s.applyDelta followed delta).Fits32 := by
  induction followed generalizing s with
  | nil => exact ⟨rfl, h⟩
  | cons p followed ih =>
    have hbump : bump delta (s.count p) < 2 ^ 32 := Nat.mod_lt _ (by omega)
    have hnext := h.setCount p hbump
    have hword : s.setCount p (bump delta (s.count p % 2 ^ 32)) =
        s.setCount p (bump delta (s.count p)) := by rw [Nat.mod_eq_of_lt (h p)]
    obtain ⟨heq, hfits⟩ := ih hnext
    refine ⟨?_, hfits⟩
    show (s.setCount p (bump delta (s.count p % 2 ^ 32))).applyDeltaWord followed delta = _
    rw [hword]
    exact heq

theorem observeWord_eq (ev : NostrEvent) (graph : GraphStore) {s : FollowGraph} (h : s.Fits32) :
    observeWord ev graph s = observe ev graph s := by
  unfold observeWord observe
  cases Hash32.fromHex ev.pubkey with
  | none => rfl
  | some author =>
    dsimp only
    split
    · split
      · cases graph.get author with
        | none => rw [(applyDeltaWord_eq h _ _).1]
        | some old =>
          obtain ⟨hold, hfits⟩ := applyDeltaWord_eq h old.follows (-1)
          dsimp only
          rw [hold, (applyDeltaWord_eq hfits _ _).1]
      · rfl
    · rfl

end FollowGraph

namespace NewUsers

/-- `(slot as i64 + delta).max(0) as u64`. -/
def slotWord (slot : ℕ) (delta : ℤ) : ℕ := (max (wrapI64 (asI64 slot + delta)) 0).toNat

/-- A count is moved, and removed when it is down to zero. -/
def moveSlot (map : Finmap fun _ : ℕ => ℕ) (key slot : ℕ) : Finmap fun _ : ℕ => ℕ :=
  if slot = 0 then (map.insert key slot).erase key else map.insert key slot

/-- The count of a bucket, zero when there is none. -/
def slotAt (map : Finmap fun _ : ℕ => ℕ) (key : ℕ) : ℕ := (map.lookup key).getD 0

/-- `shift`, of counts of 64 bits. -/
def shiftWord (s : NewUsers) (ts : ℕ) (delta : ℤ) : NewUsers :=
  let day := dayStart ts
  let month := monthStart ts
  { s with
    daily := moveSlot s.daily day (slotWord (slotAt s.daily day) delta)
    dirtyDaily := insert day s.dirtyDaily
    monthly := moveSlot s.monthly month (slotWord (slotAt s.monthly month) delta)
    dirtyMonthly := insert month s.dirtyMonthly }

/-- `observe`, of counts of 64 bits. -/
def observeWord (ev : NostrEvent) (ctx : AnalysisCtx) (store : FirstSeen) (s : NewUsers) :
    NewUsers × FirstSeen × Bool :=
  if ev.usesThrowawayKey then (s, store, false)
  else if s.attached then
    let ts := ev.createdAt
    match store.get ctx.author with
    | some prev =>
      if prev ≤ ts then (s, store, false)
      else ((s.shiftWord prev (-1)).shiftWord ts 1, store.put ctx.author ts, true)
    | none => (s.shiftWord ts 1, store.put ctx.author ts, true)
  else (s, store, false)

/-- Every count is positive as a signed number, and stays so. -/
def Fits63 (s : NewUsers) (room : ℕ) : Prop :=
  ∀ key, slotAt s.daily key + room < 2 ^ 63 ∧ slotAt s.monthly key + room < 2 ^ 63

theorem moveSlot_slotWord (map : Finmap fun _ : ℕ => ℕ) (key : ℕ) {delta : ℤ}
    (hdelta : delta = -1 ∨ delta = 1) (h : slotAt map key + 1 < 2 ^ 63) :
    moveSlot map key (slotWord (slotAt map key) delta) = shiftSlot map key delta := by
  have hword : slotWord (slotAt map key) delta =
      (max ((slotAt map key : ℤ) + delta) 0).toNat := by
    have hsigned : asI64 (slotAt map key) = slotAt map key := if_pos (by omega)
    rw [slotWord, hsigned, wrapI64_eq (by omega) (by omega)]
  rw [hword]
  rfl

theorem slotAt_shiftSlot_le (map : Finmap fun _ : ℕ => ℕ) (key : ℕ) {delta : ℤ}
    (hdelta : delta ≤ 1) (k : ℕ) : slotAt (shiftSlot map key delta) k ≤ slotAt map k + 1 := by
  have hslot : (max (((map.lookup key).getD 0 : ℤ) + delta) 0).toNat ≤ slotAt map key + 1 := by
    unfold slotAt
    omega
  by_cases hk : k = key
  · subst hk
    unfold shiftSlot
    dsimp only
    split
    · rw [slotAt, Finmap.lookup_erase]
      exact Nat.zero_le _
    · rw [slotAt, Finmap.lookup_insert]
      exact hslot
  · have hsame : slotAt (shiftSlot map key delta) k = slotAt map k := by
      unfold shiftSlot slotAt
      dsimp only
      split
      · rw [Finmap.lookup_erase_ne hk, Finmap.lookup_insert_of_ne _ hk]
      · rw [Finmap.lookup_insert_of_ne _ hk]
    omega

theorem shiftWord_eq {s : NewUsers} {room : ℕ} (h : s.Fits63 (room + 1)) (ts : ℕ) {delta : ℤ}
    (hdelta : delta = -1 ∨ delta = 1) :
    s.shiftWord ts delta = s.shift ts delta ∧ (s.shift ts delta).Fits63 room := by
  constructor
  · unfold shiftWord shift
    dsimp only
    rw [moveSlot_slotWord _ _ hdelta (by have := (h (dayStart ts)).1; omega),
      moveSlot_slotWord _ _ hdelta (by have := (h (monthStart ts)).2; omega)]
  · intro key
    have hdaily := slotAt_shiftSlot_le s.daily (dayStart ts) (by omega : delta ≤ 1) key
    have hmonthly := slotAt_shiftSlot_le s.monthly (monthStart ts) (by omega : delta ≤ 1) key
    have hkey := h key
    constructor
    · show slotAt (shiftSlot s.daily (dayStart ts) delta) key + room < 2 ^ 63
      omega
    · show slotAt (shiftSlot s.monthly (monthStart ts) delta) key + room < 2 ^ 63
      omega

theorem observeWord_eq (ev : NostrEvent) (ctx : AnalysisCtx) (store : FirstSeen) {s : NewUsers}
    (h : s.Fits63 2) : observeWord ev ctx store s = observe ev ctx store s := by
  unfold observeWord observe
  split
  · rfl
  · split
    · cases store.get ctx.author with
      | none =>
        dsimp only
        rw [(shiftWord_eq h ev.createdAt (Or.inr rfl)).1]
      | some prev =>
        obtain ⟨hprev, hfits⟩ := shiftWord_eq h prev (Or.inl rfl)
        dsimp only
        rw [hprev, (shiftWord_eq hfits ev.createdAt (Or.inr rfl)).1]
    · rfl

end NewUsers

/-! ## One type for all -/

/-- What the analyses keep outside themselves. -/
abbrev Stores := GraphStore × FirstSeen

namespace DynAnalysis

variable {σ : Type}

/-- An analysis that keeps something in the follow graph. -/
def overGraph (a : DynAnalysis σ GraphStore) : DynAnalysis σ Stores where
  name := a.name
  epoch := a.epoch
  deps := a.deps
  refreshInterval := a.refreshInterval
  kinds := a.kinds
  default := a.default
  attach := fun ext => a.attach ext.1
  observe := fun ev ctx ext s =>
    let r := a.observe ev ctx ext.1 s
    (r.1, (r.2.1, ext.2), r.2.2)
  refresh := fun ext => a.refresh ext.1
  contribute := a.contribute
  onReset := fun s ext => (a.onReset s ext.1, ext.2)
  restored := a.restored

/-- One that keeps something in the first-seen store. -/
def overFirstSeen (a : DynAnalysis σ FirstSeen) : DynAnalysis σ Stores where
  name := a.name
  epoch := a.epoch
  deps := a.deps
  refreshInterval := a.refreshInterval
  kinds := a.kinds
  default := a.default
  attach := fun ext => a.attach ext.2
  observe := fun ev ctx ext s =>
    let r := a.observe ev ctx ext.2 s
    (r.1, (ext.1, r.2.1), r.2.2)
  refresh := fun ext => a.refresh ext.2
  contribute := a.contribute
  onReset := fun s ext => (ext.1, a.onReset s ext.2)
  restored := a.restored

end DynAnalysis

inductive BuiltIn
  | activeUsers
  | activity
  | clients
  | followGraph
  | kindBreakdown
  | newUsers
  | pagerank
  | relays
  | trendingHashtags
deriving DecidableEq

/-- What the analyses take from elsewhere. -/
structure Outside (F : Type) where
  zaps : ZapParsers
  relays : RelayParsers
  /-- `to_lowercase` -/
  lower : List Char → List Char
  scores : Scores F
  /-- what the clock says at a refresh -/
  wall : ℕ

namespace BuiltIn

variable {F : Type} (o : Outside F)

def State (F : Type) : BuiltIn → Type
  | activeUsers => ActiveUsers
  | activity => Activity
  | clients => Clients
  | followGraph => FollowGraph
  | kindBreakdown => KindBreakdown
  | newUsers => NewUsers
  | pagerank => Pagerank
  | relays => Relays
  | trendingHashtags => TrendingHashtags F

/-- The analysis by itself. -/
def analysis : (b : BuiltIn) → DynAnalysis (b.State F) Stores
  | activeUsers => ActiveUsers.analysis
  | activity => Activity.analysis o.zaps
  | clients => Clients.analysis o.lower
  | followGraph =>
    { FollowGraph.analysis with observe := fun ev _ => FollowGraph.observeWord ev }.overGraph
  | kindBreakdown => KindBreakdown.analysis
  | newUsers => { NewUsers.analysis with observe := NewUsers.observeWord }.overFirstSeen
  | pagerank => Pagerank.analysis Prod.fst
  | relays => Relays.analysis o.relays
  | trendingHashtags => TrendingHashtags.analysis o.lower o.scores o.wall

/-- A state, with the analysis it is one of. -/
abbrev Dyn (F : Type) := Σ b : BuiltIn, b.State F

/-- The analysis as the registry has it, which calls what the state is one of. -/
def dyn (b : BuiltIn) : DynAnalysis (Dyn F) Stores where
  name := (b.analysis o).name
  epoch := (b.analysis o).epoch
  deps := (b.analysis o).deps
  refreshInterval := (b.analysis o).refreshInterval
  kinds := (b.analysis o).kinds
  default := ⟨b, (b.analysis o).default⟩
  attach := fun ext s => ⟨s.1, (s.1.analysis o).attach ext s.2⟩
  observe := fun ev ctx ext s =>
    let r := (s.1.analysis o).observe ev ctx ext s.2
    (⟨s.1, r.1⟩, r.2)
  refresh := fun ext s => ⟨s.1, (s.1.analysis o).refresh ext s.2⟩
  contribute := fun s => (s.1.analysis o).contribute s.2
  onReset := fun s => (s.1.analysis o).onReset s.2
  restored := fun s => ⟨s.1, (s.1.analysis o).restored s.2⟩

end BuiltIn

/-- A registry of these analyses, each with a state of its own. -/
structure BuiltIns {F : Type} (o : Outside F) where
  registry : Registry (BuiltIn.Dyn F) Stores
  own : ∀ e ∈ registry.entries, e.analysis = e.state.1.dyn o

end NostrSearch.Stats
