import NostrSearch.Lib.Faults
import NostrSearch.Stats.Folding
import NostrSearch.Stats.Pagerank

/-!
# Throughput

A registry counts the events that one of its entries took, and at each tick its `RateMeter` takes
off this total what it was at the tick before. `reset_all` sets the total to zero, and the meter
keeps what it remembers.

The totals that the meter is given never go down if and only if, after every `reset_all`, as many
events are counted before the next tick as the meter remembers (`rising_iff`).

The moving average is a `f64`: what becomes of it is a parameter.
-/

namespace NostrSearch.Stats

open NostrSearch.Core NostrSearch.Lib

/-- A moving average of events per second. -/
structure RateMeter (ρ : Type) where
  ewma : ρ
  last : Option ℕ
  lastCount : ℕ

namespace RateMeter

variable {ρ : Type} (average : ρ → ℕ → ℕ → ρ)

/-- `a - b` of words of 64 bits that goes on where it underflows. -/
def wrapSub (a b : ℕ) : ℕ := (a + 2 ^ 64 - b) % 2 ^ 64

/-- Record the `total` events observed so far. `average` takes in so many events of so many
nanoseconds. -/
def tick (m : RateMeter ρ) (now total : ℕ) : RateMeter ρ :=
  { ewma :=
      match m.last with
      | none => m.ewma
      | some prev =>
        if 0 < now - prev then average m.ewma (wrapSub total m.lastCount) (now - prev) else m.ewma
    last := some now
    lastCount := total }

/-- `tick`, with overflow checks on. -/
def tickC (m : RateMeter ρ) (now total : ℕ) : Res (RateMeter ρ) := do
  let ewma ←
    match m.last with
    | none => .ok m.ewma
    | some prev =>
      if 0 < now - prev then do
        let events ← Res.sub total m.lastCount
        .ok (average m.ewma events (now - prev))
      else .ok m.ewma
  return { ewma := ewma, last := some now, lastCount := total }

/-- Totals that go up are no underflow. -/
theorem tickC_eq {m : RateMeter ρ} {total : ℕ} (h : m.lastCount ≤ total) (hfit : total < 2 ^ 64)
    (now : ℕ) : m.tickC average now total = .ok (m.tick average now total) := by
  have hsub : wrapSub total m.lastCount = total - m.lastCount := by
    unfold wrapSub
    omega
  unfold tickC tick
  cases m.last with
  | none => rfl
  | some prev =>
    dsimp only
    split
    · rw [Res.sub_eq h, hsub]
      rfl
    · rfl

end RateMeter

namespace Registry

variable {σ ε : Type} {mode : FoldMode} {ev : NostrEvent} {ctx : AnalysisCtx}

/-- Whether an entry takes the event, which is then counted. -/
def counts (r : Registry σ ε) (ev : NostrEvent) (mode : FoldMode) (indices : List ℕ) : Bool :=
  match Hash32.fromHex ev.pubkey, Hash32.fromHex ev.id with
  | some _, some id => indices.any fun i => r.entries[i]?.any fun e => e.admits mode ev id
  | _, _ => false

theorem totalEvents_foldAt (acc : Registry σ ε × Bool) (i : ℕ) :
    (foldAt mode ev ctx acc i).1.totalEvents = acc.1.totalEvents := by
  unfold foldAt
  split
  · rfl
  · split <;> rfl

theorem totalEvents_foldl (indices : List ℕ) (acc : Registry σ ε × Bool) :
    (indices.foldl (foldAt mode ev ctx) acc).1.totalEvents = acc.1.totalEvents := by
  induction indices generalizing acc with
  | nil => rfl
  | cons i is ih => rw [List.foldl_cons, ih, totalEvents_foldAt]

/-- A turn that takes the event, and one that leaves everything as it is. -/
theorem foldAt_touched (acc : Registry σ ε × Bool) (i : ℕ) :
    (acc.1.entries[i]?.any (fun e => e.admits mode ev ctx.eventId) = true ∧
        (foldAt mode ev ctx acc i).2 = true) ∨
      (acc.1.entries[i]?.any (fun e => e.admits mode ev ctx.eventId) = false ∧
        foldAt mode ev ctx acc i = acc) := by
  unfold foldAt
  cases acc.1.entries[i]? with
  | none => exact .inr ⟨rfl, rfl⟩
  | some e =>
    rw [Option.any_some]
    cases hfold : e.fold mode ev ctx acc.1.ext with
    | none =>
      refine .inr ⟨?_, by simp only [hfold]⟩
      have hnone := mt Entry.fold_isSome.mpr (by rw [hfold]; nofun)
      exact Bool.eq_false_iff.mpr hnone
    | some r => exact .inl ⟨Entry.fold_isSome.mp (by rw [hfold]; rfl), by simp only [hfold]⟩

theorem foldl_touched (indices : List ℕ) {acc : Registry σ ε × Bool} (h : acc.2 = true) :
    (indices.foldl (foldAt mode ev ctx) acc).2 = true := by
  induction indices generalizing acc with
  | nil => exact h
  | cons i is ih =>
    rw [List.foldl_cons]
    apply ih
    obtain ⟨-, htouched⟩ | ⟨-, hsame⟩ := foldAt_touched acc i
    · exact htouched
    · rw [hsame, h]

theorem foldl_touched_eq (indices : List ℕ) (r : Registry σ ε) :
    (indices.foldl (foldAt mode ev ctx) (r, false)).2 =
      indices.any fun i => r.entries[i]?.any fun e => e.admits mode ev ctx.eventId := by
  induction indices with
  | nil => rfl
  | cons i is ih =>
    rw [List.foldl_cons, List.any_cons]
    obtain ⟨hadmits, htouched⟩ | ⟨hadmits, hsame⟩ := foldAt_touched (r, false) i
    · rw [foldl_touched is htouched, hadmits, Bool.true_or]
    · rw [hsame, ih, hadmits, Bool.false_or]

theorem totalEvents_fold (r : Registry σ ε) (ev : NostrEvent) (now : ℕ) (world : World)
    (mode : FoldMode) (indices : List ℕ) :
    (r.fold ev now world mode indices).totalEvents =
      r.totalEvents + if r.counts ev mode indices then 1 else 0 := by
  unfold fold counts
  cases Hash32.fromHex ev.pubkey with
  | none => rfl
  | some author =>
    cases Hash32.fromHex ev.id with
    | none => rfl
    | some id =>
      dsimp only
      rw [foldl_touched_eq]
      split
      · exact congrArg (· + 1) (totalEvents_foldl indices (r, false))
      · exact totalEvents_foldl indices (r, false)

end Registry

/-! ## Runs -/

/-- A registry with its meter. -/
structure Metered (σ ε ρ : Type) where
  registry : Registry σ ε
  rate : RateMeter ρ

namespace Metered

inductive Op (σ : Type)
  | fold (ev : NostrEvent) (now : ℕ) (world : World) (mode : FoldMode) (indices : List ℕ)
  | reset (name : String)
  | resetAll
  | load (now : ℕ) (store : StatStore σ)
  | emitTick (now : ℕ)

variable {σ ε ρ : Type}

/-- A new registry, and the meter it starts with. -/
def new (as : List (DynAnalysis σ ε)) (ext : ε) (zero : ρ) : Metered σ ε ρ :=
  { registry := Registry.ofAnalyses as ext
    rate := { ewma := zero, last := none, lastCount := 0 } }

/-- One call on the registry. A `reset` of an unknown name does nothing. -/
def step (average : ρ → ℕ → ℕ → ρ) (s : Metered σ ε ρ) : Op σ → Metered σ ε ρ
  | .fold ev now world mode indices =>
    { s with registry := s.registry.fold ev now world mode indices }
  | .reset name => { s with registry := (s.registry.reset name).elim s.registry Prod.fst }
  | .resetAll => { s with registry := s.registry.resetAll.1 }
  | .load now store => { s with registry := s.registry.load now store }
  | .emitTick now => { s with rate := s.rate.tick average now s.registry.totalEvents }

def run (average : ρ → ℕ → ℕ → ρ) (s : Metered σ ε ρ) (ops : List (Op σ)) : Metered σ ε ρ :=
  ops.foldl (step average) s

/-- At every tick the total is at least that of the tick before. -/
def Rising (average : ρ → ℕ → ℕ → ρ) (s : Metered σ ε ρ) (ops : List (Op σ)) : Prop :=
  ∀ before now after, ops = before ++ .emitTick now :: after →
    (run average s before).rate.lastCount ≤ (run average s before).registry.totalEvents

/-- How many folds of a run are counted. -/
def counted (average : ρ → ℕ → ℕ → ρ) : Metered σ ε ρ → List (Op σ) → ℕ
  | _, [] => 0
  | s, .fold ev now world mode indices :: ops =>
    (if s.registry.counts ev mode indices then 1 else 0) +
      counted average (s.step average (.fold ev now world mode indices)) ops
  | s, op :: ops => counted average (s.step average op) ops

/-- Neither a tick nor a `reset_all`. -/
def Op.isPlain : Op σ → Bool
  | .emitTick _ => false
  | .resetAll => false
  | _ => true

/-- After a `reset_all` as many events are counted before the next tick as were counted at the last
tick before it. -/
def Recovers (average : ρ → ℕ → ℕ → ρ) (s : Metered σ ε ρ) (ops : List (Op σ)) : Prop :=
  ∀ before between now after, ops = before ++ .resetAll :: (between ++ .emitTick now :: after) →
    (∀ op ∈ between, op.isPlain) →
    (run average s before).rate.lastCount ≤
      counted average (run average s (before ++ [.resetAll])) between

section Run

variable {average : ρ → ℕ → ℕ → ρ}

theorem run_concat (s : Metered σ ε ρ) (ops : List (Op σ)) (op : Op σ) :
    run average s (ops ++ [op]) = (run average s ops).step average op := by
  rw [run, List.foldl_append]
  rfl

theorem run_append (s : Metered σ ε ρ) (ops ops' : List (Op σ)) :
    run average s (ops ++ ops') = run average (run average s ops) ops' := by
  rw [run, List.foldl_append]
  rfl

/-- What a call that is neither a tick nor a `reset_all` does to the total. -/
theorem totalEvents_step (s : Metered σ ε ρ) {op : Op σ} (h : op.isPlain = true) :
    (s.step average op).registry.totalEvents =
      s.registry.totalEvents + counted average s [op] := by
  cases op with
  | fold ev now world mode indices => exact Registry.totalEvents_fold _ _ _ _ _ _
  | reset name =>
    show ((s.registry.reset name).elim s.registry Prod.fst).totalEvents = _
    unfold Registry.reset
    split <;> rfl
  | resetAll => cases h
  | load now store => rfl
  | emitTick now => cases h

theorem lastCount_step (s : Metered σ ε ρ) {op : Op σ} (h : op.isPlain = true) :
    (s.step average op).rate.lastCount = s.rate.lastCount := by
  cases op with
  | emitTick now => cases h
  | _ => rfl

theorem counted_concat (s : Metered σ ε ρ) (ops : List (Op σ)) (op : Op σ) :
    counted average s (ops ++ [op]) =
      counted average s ops + counted average (run average s ops) [op] := by
  induction ops generalizing s with
  | nil => exact (Nat.zero_add _).symm
  | cons op' ops ih =>
    cases op' with
    | fold ev now world mode indices =>
      rw [List.cons_append, counted, counted, ih, add_assoc]
      rfl
    | _ => exact ih _

/-- The total goes up by what is counted. -/
theorem totalEvents_run (s : Metered σ ε ρ) {ops : List (Op σ)} (h : ∀ op ∈ ops, op.isPlain) :
    (run average s ops).registry.totalEvents =
        s.registry.totalEvents + counted average s ops ∧
      (run average s ops).rate.lastCount = s.rate.lastCount := by
  induction ops using List.reverseRecOn with
  | nil => exact ⟨rfl, rfl⟩
  | append_singleton ops op ih =>
    have hop : op.isPlain = true := h op List.mem_concat_self
    obtain ⟨htotal, hlast⟩ := ih fun op' hop' => h op' (List.mem_append_left _ hop')
    rw [run_concat, totalEvents_step _ hop, lastCount_step _ hop, counted_concat, htotal, hlast,
      add_assoc]
    exact ⟨rfl, rfl⟩

/-- Where a run leaves the total above what the meter remembers, or since when it does not. -/
theorem rising_or_reset (as : List (DynAnalysis σ ε)) (ext : ε) (zero : ρ) (ops : List (Op σ)) :
    (run average (new as ext zero) ops).rate.lastCount ≤
        (run average (new as ext zero) ops).registry.totalEvents ∨
      ∃ before between, ops = before ++ .resetAll :: between ∧ ∀ op ∈ between, op.isPlain := by
  induction ops using List.reverseRecOn with
  | nil => exact .inl le_rfl
  | append_singleton ops op ih =>
    rw [run_concat]
    by_cases hop : op.isPlain = true
    · obtain hle | ⟨before, between, rfl, hplain⟩ := ih
      · rw [totalEvents_step _ hop, lastCount_step _ hop]
        exact .inl (hle.trans (Nat.le_add_right _ _))
      · refine .inr ⟨before, between ++ [op], by simp, fun op' hop' => ?_⟩
        rw [List.mem_append, List.mem_singleton] at hop'
        obtain hmem | rfl := hop'
        · exact hplain op' hmem
        · exact hop
    · cases op with
      | emitTick now => exact .inl le_rfl
      | resetAll => exact .inr ⟨ops, [], rfl, fun op hop => by cases hop⟩
      | _ => exact absurd rfl hop

/-- After a `reset_all` the total is what was counted since. -/
theorem totalEvents_resetAll (s : Metered σ ε ρ) (before : List (Op σ)) {between : List (Op σ)}
    (h : ∀ op ∈ between, op.isPlain) :
    (run average s (before ++ .resetAll :: between)).registry.totalEvents =
        counted average (run average s (before ++ [.resetAll])) between ∧
      (run average s (before ++ .resetAll :: between)).rate.lastCount =
        (run average s before).rate.lastCount := by
  have hsplit : before ++ .resetAll :: between = (before ++ [.resetAll]) ++ between := by simp
  have hreset : (run average s (before ++ [.resetAll])).registry.totalEvents = 0 ∧
      (run average s (before ++ [.resetAll])).rate.lastCount =
        (run average s before).rate.lastCount := by
    rw [run_concat]
    exact ⟨rfl, rfl⟩
  obtain ⟨htotal, hlast⟩ := totalEvents_run (run average s (before ++ [.resetAll])) h
  rw [hsplit, run_append, htotal, hlast, hreset.1, hreset.2, Nat.zero_add]
  exact ⟨rfl, rfl⟩

end Run

/-- **The totals never go down** if and only if the events are made up for after every
`reset_all`. -/
theorem rising_iff (average : ρ → ℕ → ℕ → ρ) (as : List (DynAnalysis σ ε)) (ext : ε) (zero : ρ)
    (ops : List (Op σ)) :
    Rising average (new as ext zero) ops ↔ Recovers average (new as ext zero) ops := by
  constructor
  · intro hrising before between now after hops hplain
    have hle := hrising (before ++ .resetAll :: between) now after (by simp [hops])
    obtain ⟨htotal, hlast⟩ := totalEvents_resetAll (new as ext zero) before hplain
    rwa [htotal, hlast] at hle
  · intro hrecovers before now after hops
    obtain hle | ⟨before, between, rfl, hplain⟩ := rising_or_reset as ext zero before
    · exact hle
    · obtain ⟨htotal, hlast⟩ := totalEvents_resetAll (new as ext zero) before hplain
      rw [htotal, hlast]
      exact hrecovers before between now after (by simp [hops]) hplain

/-- Then no tick panics with overflow checks on. -/
theorem Rising.tickC_eq {average : ρ → ℕ → ℕ → ρ} {s : Metered σ ε ρ}
    {before after : List (Op σ)} {now : ℕ}
    (h : Rising average s (before ++ .emitTick now :: after))
    (hfit : (run average s before).registry.totalEvents < 2 ^ 64) :
    (run average s before).rate.tickC average now (run average s before).registry.totalEvents =
      .ok (run average s (before ++ [.emitTick now])).rate := by
  rw [run_concat]
  exact RateMeter.tickC_eq average (h before now after rfl) hfit now

/-- An event that any entry takes. -/
def countedEvent : NostrEvent where
  id := "0000000000000000000000000000000000000000000000000000000000000001"
  pubkey := "0000000000000000000000000000000000000000000000000000000000000002"
  createdAt := 1700000000
  kind := 1
  tags := []
  content := ""
  sig := ""

/-- The average of the source, of rationals. -/
def rationalAverage (ewma : ℚ) (events dt : ℕ) : ℚ :=
  1 / 5 * (events / (dt / 10 ^ 9)) + 4 / 5 * ewma

/-- An event and a tick, then everything is reset, and a tick again. -/
def resetBetween : List (Op Pagerank) :=
  [.fold countedEvent 1700000000 World.empty .live [0], .emitTick 0, .resetAll, .emitTick (10 ^ 9)]

/-- The meter remembers one event, and there are none. -/
theorem resetBetween_not_rising :
    ¬ Rising rationalAverage (new [Pagerank.analysis id] GraphStore.empty 0) resetBetween := by
  intro hrising
  have hle := hrising (resetBetween.take 3) (10 ^ 9) [] rfl
  have hcounts : (Registry.ofAnalyses [Pagerank.analysis id] GraphStore.empty).counts countedEvent
      .live [0] = true := by decide
  have htotal := Registry.totalEvents_fold (Registry.ofAnalyses [Pagerank.analysis id]
    GraphStore.empty) countedEvent 1700000000 World.empty .live [0]
  rw [if_pos hcounts] at htotal
  have hle : (Registry.fold (Registry.ofAnalyses [Pagerank.analysis id] GraphStore.empty)
    countedEvent 1700000000 World.empty .live [0]).totalEvents ≤ 0 := hle
  rw [htotal] at hle
  exact absurd hle (Nat.not_succ_le_zero 0)

end Metered

end NostrSearch.Stats
