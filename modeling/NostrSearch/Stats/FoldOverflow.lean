import NostrSearch.Core.Lowercase
import NostrSearch.Stats.ObserveOverflow
import NostrSearch.Stats.Throughput
import NostrSearch.Stats.TrendingMentions

/-!
# Overflow in the fold

`Registry::fold` with overflow checks on, over the analyses that come with the program. What a turn
of its loop needs is `Entry.Fits`: the timestamp of an event that the watermark is compared with is
`LIVE_LAG_SECS` from the end of 64 bits, the analysis has room for what it is handed, and the
counters have room for one more. `evaluates_iff` says that the fold panics where this fails, and
nowhere else.

A timestamp near `2 ^ 64` fails at the gate. With checks off it is compared as one from the first
hours of 1970 (`Progress.not_shouldConsume_of_overflow`).
-/

namespace NostrSearch.Stats

open NostrSearch.Core NostrSearch.Lib

/-! ## The gate -/

namespace Progress

/-- `should_consume`, with checks on. -/
def shouldConsumeC (p : Progress) (createdAt : ℕ) (id : EventId) : Res Bool := do
  let bound ← Res.add createdAt liveLagSecs
  if bound < p.watermark then return false
  else if id ∈ p.boundary then return false
  else return true

/-- `advance`, with checks on. -/
def advanceC (p : Progress) (createdAt : ℕ) (id : EventId) : Res Progress := do
  let events ← Res.add p.events 1
  return { p with
    watermark := max p.watermark createdAt
    boundary := insert id (if maxBoundary ≤ p.boundary.card then ∅ else p.boundary)
    events := events }

/-- `advance_bounded`, with checks on. -/
def advanceBoundedC (p : Progress) (createdAt : ℕ) (id : EventId) (maxTs : ℕ) :
    Res Progress := do
  if maxTs < createdAt then
    let events ← Res.add p.events 1
    return { p with events := events }
  else p.advanceC createdAt id

theorem checks_shouldConsume (p : Progress) (createdAt : ℕ) (id : EventId) :
    Checks (p.shouldConsumeC createdAt id) (createdAt + liveLagSecs < 2 ^ 64)
      (p.shouldConsume createdAt id) := by
  have hlast := (checks_add createdAt liveLagSecs).last fun bound =>
    if bound < p.watermark then false else if id ∈ p.boundary then false else true
  have hsame : p.shouldConsumeC createdAt id = (do
      let bound ← Res.add createdAt liveLagSecs
      return if bound < p.watermark then false else if id ∈ p.boundary then false else true) := by
    unfold shouldConsumeC
    congr 1
    funext bound
    split
    · rfl
    · split <;> rfl
  rw [hsame]
  exact hlast

theorem checks_advanceBounded (p : Progress) (createdAt : ℕ) (id : EventId) (maxTs : ℕ) :
    Checks (p.advanceBoundedC createdAt id maxTs) (p.events + 1 < 2 ^ 64)
      (p.advanceBounded createdAt id maxTs) := by
  unfold advanceBoundedC advanceBounded
  have hevents := checks_add_exact p.events 1
  split
  · exact hevents.last fun events => { p with events := events }
  · exact hevents.last fun events => { p.advance createdAt id with events := events }

end Progress

/-! ## One entry -/

namespace Entry

variable {F : Type} (o : Outside F) (e : Entry (BuiltIn.Dyn F) Stores) (mode : FoldMode)
  (ev : NostrEvent) (ctx : AnalysisCtx) (ext : Stores)

/-- The gate, with checks on. An analysis that is backfilling does not look at the watermark. -/
def admitsC (id : EventId) : Res Bool :=
  if e.ordered mode then e.progress.shouldConsumeC ev.createdAt id else return true

/-- The counters after an event, with checks on. -/
def countC (c : Counters) (consumed : Bool) : Res Counters := do
  if consumed then
    let n ← Res.add c.consumed 1
    return { c with consumed := n }
  else
    let n ← Res.add c.filtered 1
    return { c with filtered := n }

/-- `hand`, with checks on. -/
def handC : Res (Entry (BuiltIn.Dyn F) Stores × Stores) := do
  let observed ← Res.add e.progress.counters.observed 1
  let r ← BuiltIn.observeC o ev ctx ext e.state
  let counters ← countC { e.progress.counters with observed := observed } r.2.2
  return ({ e with
      state := r.1
      progress := { e.progress with counters := counters }
      log := e.log ++ [{ ev := ev, ctx := ctx }] }, r.2.1)

/-- `mark`, with checks on. -/
def markC (ordered : Bool) : Res (Entry (BuiltIn.Dyn F) Stores) := do
  if ordered then
    let progress ←
      e.progress.advanceBoundedC ev.createdAt ctx.eventId (satAdd ctx.now futureSkewSecs)
    return { e with progress := progress }
  else
    let events ← Res.add e.progress.events 1
    return { e with
      progress :=
        { e.progress with watermark := max e.progress.watermark ev.createdAt, events := events } }

/-- `fold`, with checks on. -/
def foldC : Res (Option (Entry (BuiltIn.Dyn F) Stores × Stores)) := do
  let admitted ← e.admitsC mode ev ctx.eventId
  if admitted then
    let r ← if e.analysis.wants ev then e.handC o ev ctx ext else .ok (e, ext)
    let marked ← r.1.markC ev ctx (e.ordered mode)
    return some (marked, r.2)
  else return none

/-- The counters have room for an event. -/
def CountFits (c : Counters) (consumed : Bool) : Prop :=
  (if consumed then c.consumed else c.filtered) + 1 < 2 ^ 64

/-- The analysis can take the event in, and it can be counted. -/
def HandFits : Prop :=
  e.progress.counters.observed + 1 < 2 ^ 64 ∧
    BuiltIn.OwnFits o ev ctx ext e.state.1 e.state.2 ∧
    CountFits e.progress.counters (BuiltIn.observe o ev ctx ext e.state).2.2

/-- What a turn of the loop asks for. -/
def Fits : Prop :=
  (e.ordered mode = true → ev.createdAt + liveLagSecs < 2 ^ 64) ∧
    (e.admits mode ev ctx.eventId = true →
      (e.analysis.wants ev = true → e.HandFits o ev ctx ext) ∧
        e.progress.events + 1 < 2 ^ 64)

variable {o e mode ev ctx ext}

theorem checks_admits (id : EventId) :
    Checks (e.admitsC mode ev id) (e.ordered mode = true → ev.createdAt + liveLagSecs < 2 ^ 64)
      (e.admits mode ev id) := by
  unfold admitsC admits
  cases e.ordered mode with
  | true =>
    exact (e.progress.checks_shouldConsume ev.createdAt id).iff ⟨fun h _ => h, fun h => h rfl⟩
  | false => exact (Checks.pure true).iff (iff_of_true trivial nofun)

theorem checks_count (c : Counters) (consumed : Bool) :
    Checks (countC c consumed) (CountFits c consumed)
      (if consumed then { c with consumed := c.consumed + 1 }
      else { c with filtered := c.filtered + 1 }) := by
  cases consumed with
  | true => exact (checks_add_exact c.consumed 1).last fun n => { c with consumed := n }
  | false => exact (checks_add_exact c.filtered 1).last fun n => { c with filtered := n }

theorem checks_hand (hown : e.analysis = e.state.1.dyn o) (hnow : ctx.now < 2 ^ 64) :
    Checks (e.handC o ev ctx ext) (e.HandFits o ev ctx ext) (e.hand ext ev ctx) := by
  have hobserve : e.analysis.observe ev ctx ext e.state = BuiltIn.observe o ev ctx ext e.state := by
    rw [hown]
    rfl
  unfold handC HandFits hand
  rw [hobserve]
  refine (checks_add_exact e.progress.counters.observed 1).bind ?_
  refine (BuiltIn.checks_observe o ev hnow ext e.state).bind ?_
  have hcount := checks_count
    { e.progress.counters with observed := e.progress.counters.observed + 1 }
    (BuiltIn.observe o ev ctx ext e.state).2.2
  exact hcount.last fun counters =>
    (({ e with
        state := (BuiltIn.observe o ev ctx ext e.state).1
        progress := { e.progress with counters := counters }
        log := e.log ++ [{ ev := ev, ctx := ctx }] } : Entry (BuiltIn.Dyn F) Stores),
      (BuiltIn.observe o ev ctx ext e.state).2.1)

theorem checks_mark (ordered : Bool) :
    Checks (e.markC ev ctx ordered) (e.progress.events + 1 < 2 ^ 64) (e.mark ordered ev ctx) := by
  unfold markC mark
  cases ordered with
  | true =>
    exact (e.progress.checks_advanceBounded _ _ _).last fun progress =>
      { e with progress := progress }
  | false =>
    exact (checks_add_exact e.progress.events 1).last fun events =>
      { e with
        progress :=
          { e.progress with watermark := max e.progress.watermark ev.createdAt, events := events } }

theorem state_mark (ordered : Bool) : (e.mark ordered ev ctx).state = e.state := by
  unfold mark
  split <;> rfl

theorem checks_fold (hown : e.analysis = e.state.1.dyn o) (hnow : ctx.now < 2 ^ 64) :
    Checks (e.foldC o mode ev ctx ext) (e.Fits o mode ev ctx ext) (e.fold mode ev ctx ext) := by
  unfold foldC Fits fold
  refine (checks_admits ctx.eventId).bind ?_
  cases e.admits mode ev ctx.eventId with
  | false => exact (Checks.pure none).iff (iff_of_true trivial nofun)
  | true =>
    simp only [if_true, forall_const]
    have hmark (r : Entry (BuiltIn.Dyn F) Stores × Stores)
        (hevents : r.1.progress.events = e.progress.events) :
        Checks (do
          let marked ← r.1.markC ev ctx (e.ordered mode)
          return some (marked, r.2)) (e.progress.events + 1 < 2 ^ 64)
          (some (r.1.mark (e.ordered mode) ev ctx, r.2)) := by
      rw [← hevents]
      exact (checks_mark (e.ordered mode)).last fun marked => some (marked, r.2)
    by_cases hwants : e.analysis.wants ev = true
    · simp only [hwants, forall_const]
      exact (checks_hand hown hnow).bind (hmark _ rfl)
    · simp only [if_neg hwants]
      exact ((Checks.pure (e, ext)).bind (hmark _ rfl)).iff
        (and_congr_left' (iff_of_true trivial fun h => absurd h hwants))

/-- A turn leaves an entry with its own analysis. -/
theorem own_fold {e' : Entry (BuiltIn.Dyn F) Stores} {ext' : Stores}
    (hown : e.analysis = e.state.1.dyn o) (h : e.fold mode ev ctx ext = some (e', ext')) :
    e'.analysis = e'.state.1.dyn o := by
  have hstate : e'.state.1 = e.state.1 := by
    unfold fold at h
    split at h
    case isFalse => cases h
    case isTrue =>
      rw [Option.some.injEq, Prod.mk.injEq] at h
      rw [← h.1, state_mark]
      split
      · show (e.analysis.observe ev ctx ext e.state).1.1 = e.state.1
        rw [hown]
        rfl
      · rfl
  rw [(folded_of_fold h).analysis, hown, hstate]

end Entry

/-! ## The loop -/

namespace Registry

variable {F : Type} (o : Outside F) (mode : FoldMode) (ev : NostrEvent) (ctx : AnalysisCtx)

/-- `foldAt`, with checks on. -/
def foldAtC (acc : Registry (BuiltIn.Dyn F) Stores × Bool) (i : ℕ) :
    Res (Registry (BuiltIn.Dyn F) Stores × Bool) :=
  match acc.1.entries[i]? with
  | none => return acc
  | some e => do
    match ← e.foldC o mode ev ctx acc.1.ext with
    | none => return acc
    | some (e', ext') =>
      return ({ acc.1 with entries := acc.1.entries.set i e', ext := ext' }, true)

/-- `Registry::fold`, with checks on. -/
def foldC (r : Registry (BuiltIn.Dyn F) Stores) (ev : NostrEvent) (now : ℕ) (world : World)
    (mode : FoldMode) (indices : List ℕ) : Res (Registry (BuiltIn.Dyn F) Stores) :=
  match Hash32.fromHex ev.pubkey, Hash32.fromHex ev.id with
  | some author, some id => do
    let ctx : AnalysisCtx := { now := now, author := author, eventId := id, world := world }
    let acc ← indices.foldlM (foldAtC o mode ev ctx) (r, false)
    if acc.2 then
      let total ← Res.add acc.1.totalEvents 1
      return { acc.1 with totalEvents := total }
    else return acc.1
  | _, _ => return r

/-- What the turn at an index asks for. -/
def TurnFits (acc : Registry (BuiltIn.Dyn F) Stores × Bool) (i : ℕ) : Prop :=
  ∀ e, acc.1.entries[i]? = some e → e.Fits o mode ev ctx acc.1.ext

/-- Every turn fits from where those before it left, and the event can be counted. -/
def Fits (r : Registry (BuiltIn.Dyn F) Stores) (ev : NostrEvent) (now : ℕ) (world : World)
    (mode : FoldMode) (indices : List ℕ) : Prop :=
  ∀ author id, Hash32.fromHex ev.pubkey = some author → Hash32.fromHex ev.id = some id →
    let ctx : AnalysisCtx := { now := now, author := author, eventId := id, world := world }
    FitsAll (TurnFits o mode ev ctx) (foldAt mode ev ctx) indices (r, false) ∧
      (r.counts ev mode indices = true → r.totalEvents + 1 < 2 ^ 64)

/-- Every entry has a state of its own analysis. -/
def Own (r : Registry (BuiltIn.Dyn F) Stores) : Prop :=
  ∀ e ∈ r.entries, e.analysis = e.state.1.dyn o

variable {o mode ev ctx}

theorem checks_foldAt {acc : Registry (BuiltIn.Dyn F) Stores × Bool} (hown : acc.1.Own o)
    (hnow : ctx.now < 2 ^ 64) (i : ℕ) :
    Checks (foldAtC o mode ev ctx acc i) (TurnFits o mode ev ctx acc i)
      (foldAt mode ev ctx acc i) := by
  unfold foldAtC TurnFits foldAt
  cases hi : acc.1.entries[i]? with
  | none => exact (Checks.pure acc).iff (iff_of_true trivial fun e he => by cases he)
  | some e =>
    have hfold : Checks (e.foldC o mode ev ctx acc.1.ext) (e.Fits o mode ev ctx acc.1.ext)
        (e.fold mode ev ctx acc.1.ext) :=
      Entry.checks_fold (hown e (List.mem_of_getElem? hi)) hnow
    refine (hfold.bind (q := True) ?_).iff ?_
    · dsimp only
      cases e.fold mode ev ctx acc.1.ext with
      | none => exact Checks.pure _
      | some r => exact Checks.pure _
    · rw [and_iff_left trivial]
      constructor
      · intro h e' he'
        rw [Option.some.injEq] at he'
        rwa [← he']
      · exact fun h => h e rfl

/-- A turn leaves every entry with its own analysis. -/
theorem own_foldAt {acc : Registry (BuiltIn.Dyn F) Stores × Bool} (hown : acc.1.Own o) (i : ℕ) :
    (foldAt mode ev ctx acc i).1.Own o := by
  unfold foldAt
  cases hi : acc.1.entries[i]? with
  | none => exact hown
  | some e =>
    dsimp only
    cases hfold : e.fold mode ev ctx acc.1.ext with
    | none => exact hown
    | some r =>
      intro e' he'
      rcases List.mem_or_eq_of_mem_set he' with hmem | rfl
      · exact hown e' hmem
      · exact Entry.own_fold (hown e (List.mem_of_getElem? hi)) hfold

theorem checks_foldl (hnow : ctx.now < 2 ^ 64) (indices : List ℕ)
    {acc : Registry (BuiltIn.Dyn F) Stores × Bool} (hown : acc.1.Own o) :
    Checks (indices.foldlM (foldAtC o mode ev ctx) acc)
      (FitsAll (TurnFits o mode ev ctx) (foldAt mode ev ctx) indices acc)
      (indices.foldl (foldAt mode ev ctx) acc) := by
  induction indices generalizing acc with
  | nil => exact Checks.pure acc
  | cons i is ih => exact (checks_foldAt hown hnow i).bind (ih (own_foldAt hown i))

theorem checks_fold {r : Registry (BuiltIn.Dyn F) Stores} (hown : r.Own o) (ev : NostrEvent)
    {now : ℕ} (hnow : now < 2 ^ 64) (world : World) (mode : FoldMode) (indices : List ℕ) :
    Checks (r.foldC o ev now world mode indices) (r.Fits o ev now world mode indices)
      (r.fold ev now world mode indices) := by
  unfold foldC Fits fold
  cases hauthor : Hash32.fromHex ev.pubkey with
  | none => exact (Checks.pure r).iff (iff_of_true trivial nofun)
  | some author =>
    cases hid : Hash32.fromHex ev.id with
    | none => exact (Checks.pure r).iff (iff_of_true trivial nofun)
    | some id =>
      let ctx : AnalysisCtx := { now := now, author := author, eventId := id, world := world }
      let acc := indices.foldl (foldAt mode ev ctx) (r, false)
      have hloop : Checks (indices.foldlM (foldAtC o mode ev ctx) (r, false))
          (FitsAll (TurnFits o mode ev ctx) (foldAt mode ev ctx) indices (r, false)) acc :=
        checks_foldl hnow indices hown
      have htouched : acc.2 = r.counts ev mode indices := by
        rw [counts, hauthor, hid]
        exact foldl_touched_eq indices r
      have htotal : acc.1.totalEvents = r.totalEvents := totalEvents_foldl indices (r, false)
      have hcount : Checks
          (if acc.2 = true then do
            let total ← Res.add acc.1.totalEvents 1
            return { acc.1 with totalEvents := total }
          else return acc.1)
          (r.counts ev mode indices = true → r.totalEvents + 1 < 2 ^ 64)
          (if acc.2 = true then { acc.1 with totalEvents := acc.1.totalEvents + 1 }
          else acc.1) := by
        rw [htouched, ← htotal]
        split
        case isTrue hcounts =>
          exact ((checks_add_exact acc.1.totalEvents 1).last fun total =>
            { acc.1 with totalEvents := total }).iff ⟨fun h _ => h, fun h => h hcounts⟩
        case isFalse hcounts =>
          exact (Checks.pure acc.1).iff (iff_of_true trivial fun h => absurd h hcounts)
      apply (hloop.bind hcount).iff
      constructor
      · intro h author' id' hauthor' hid'
        rw [Option.some.injEq] at hauthor' hid'
        rw [← hauthor', ← hid']
        exact h
      · exact fun h => h author id rfl rfl

end Registry

/-- With checks off, a timestamp so far ahead is rejected as too old, as soon as the watermark is
a day into 1970. -/
theorem Progress.not_shouldConsume_of_overflow {p : Progress} {createdAt : ℕ} (id : EventId)
    (hfar : 2 ^ 64 ≤ createdAt + liveLagSecs) (hword : createdAt < 2 ^ 64)
    (hmark : liveLagSecs ≤ p.watermark) : p.shouldConsume createdAt id = false := by
  rw [shouldConsume, if_pos]
  unfold wrapAdd
  omega

namespace BuiltIns

variable {F : Type} {o : Outside F}

/-- A registry in which these analyses are registered. -/
def new (o : Outside F) (bs : List BuiltIn) (ext : Stores) : BuiltIns o where
  registry := Registry.ofAnalyses (bs.map (BuiltIn.dyn o)) ext
  own := by
    intro e he
    simp only [Registry.ofAnalyses, List.map_map, List.mem_map, Function.comp_apply] at he
    obtain ⟨b, -, rfl⟩ := he
    rfl

/-- **The fold evaluates without overflow** if and only if, at every entry it comes to, a timestamp
that is compared with the watermark is `LIVE_LAG_SECS` from the end of 64 bits, the analysis can
take in what it is handed, and the counters have room. What an analysis can take in is its own
matter: for four of them anything. -/
theorem evaluates_iff (r : BuiltIns o) (ev : NostrEvent) {now : ℕ} (hnow : now < 2 ^ 64)
    (world : World) (mode : FoldMode) (indices : List ℕ) :
    (r.registry.foldC o ev now world mode indices =
        .ok (r.registry.fold ev now world mode indices) ↔
      r.registry.Fits o ev now world mode indices) ∧
    ∀ (author : Pubkey) (id : EventId) (ext : Stores) (s : BuiltIn.Dyn F),
      let ctx : AnalysisCtx := { now := now, author := author, eventId := id, world := world }
      BuiltIn.observeC o ev ctx ext s = .ok (BuiltIn.observe o ev ctx ext s) ↔
        BuiltIn.OwnFits o ev ctx ext s.1 s.2 := by
  constructor
  · rw [(Registry.checks_fold r.own ev hnow world mode indices).eq_ok_iff]
    exact and_iff_left rfl
  · intro author id ext s ctx
    have hctx : ctx.now < 2 ^ 64 := hnow
    rw [(BuiltIn.checks_observe o ev hctx ext s).eq_ok_iff]
    exact and_iff_left rfl

/-- Nothing from elsewhere that knows a zap or an address. -/
def bareOutside : Outside ℚ where
  zaps := { fromStr := fun _ => none, amountPicoBtc := fun _ => none }
  relays := { toLowercase := asciiLower, isIp := fun _ => false, len := fun _ => 0 }
  lower := asciiLower
  scores := TrendingHashtags.rationalScores
  wall := 1700000000

/-- A registry with `active_users` alone. -/
def onlyUsers : BuiltIns bareOutside :=
  new bareOutside [.activeUsers] (GraphStore.empty, FirstSeen.empty)

/-- An event of 2023 is folded. -/
theorem countedEvent_evaluates :
    onlyUsers.registry.foldC bareOutside Metered.countedEvent 1700000000 World.empty .live [0] =
      .ok (onlyUsers.registry.fold Metered.countedEvent 1700000000 World.empty .live [0]) := by
  refine (evaluates_iff onlyUsers Metered.countedEvent (by omega) World.empty .live [0]).1.mpr ?_
  intro author id hauthor hid
  refine ⟨⟨?_, trivial⟩, fun _ => ?_⟩
  · intro e he
    have he : e = Entry.new (BuiltIn.activeUsers.dyn bareOutside) := (Option.some.inj he).symm
    subst he
    refine ⟨fun _ => by decide, fun _ => ⟨fun _ => ⟨by decide, trivial, ?_⟩, by decide⟩⟩
    unfold Entry.CountFits
    split <;> decide
  · decide

/-- An event with the last timestamp there is. -/
def lastEvent : NostrEvent := { Metered.countedEvent with createdAt := 2 ^ 64 - 1 }

/-- It panics at the gate. -/
theorem lastEvent_overflows :
    onlyUsers.registry.foldC bareOutside lastEvent 1700000000 World.empty .live [0] =
      .error .panic := by
  refine (Registry.checks_fold onlyUsers.own lastEvent (by omega) World.empty .live [0]).panic ?_
  intro h
  obtain ⟨author, hauthor⟩ : ∃ author, Hash32.fromHex lastEvent.pubkey = some author :=
    Option.isSome_iff_exists.mp (by decide)
  obtain ⟨id, hid⟩ : ∃ id, Hash32.fromHex lastEvent.id = some id :=
    Option.isSome_iff_exists.mp (by decide)
  have hturn := (h author id hauthor hid).1.1
  have hgate := (hturn (Entry.new (BuiltIn.activeUsers.dyn bareOutside)) rfl).1 rfl
  revert hgate
  decide

end BuiltIns

end NostrSearch.Stats
