import NostrSearch.Indexer.Midnight
import NostrSearch.Indexer.ScrapeUnit
import NostrSearch.Indexer.Targets

/-!
# The scraper, task by task

`run_pass` and the loop that calls it, with the units they start. The loop discovers relays and pins
some, and makes a pass; the pass releases retired relays, and then plans, starts units and plans
again. Every look at the in-flight set, every read of the relay table and every walk through the
days of one relay is a step, and units move in between. `ScraperStage` is what the planning task
holds on to meanwhile: it reads the table once for a whole call of `plan_batch`, and carries the
records it drew through the wait for a slot.

Nobody but a unit of the relay records a day of it, so one walk is one step.
-/

namespace NostrSearch.Indexer

open NostrSearch.Core NostrSearch.Lib

/-- Records on their way, with their URLs. -/
abbrev RelayTable := List (List Char × RelayInfo)

/-- Where the planning task is. -/
inductive ScraperStage
  /-- between two passes -/
  | idle
  /-- records that were read are written back: by discovery, or by the release of a pass -/
  | writing (todo : RelayTable) (inPass : Bool)
  /-- before the table is read -/
  | ready
  /-- before the call of `plan_batch` -/
  | scope (targets : RelayTable)
  /-- in `plan_batch`: the rest of the order, the batch, a relay that is not passed over and whose
  walk is next, and the relays walked -/
  | planning (call : PlanCall) (todo : List ℕ) (out : List RelayDay)
      (cur : Option (List Char × RelayInfo)) (looked : List (List Char))
  /-- before a slot is taken -/
  | drain (batch : List RelayDay)
  /-- before `in_flight` is told -/
  | granted (day : RelayDay) (batch : List RelayDay)
  /-- before the unit is spawned -/
  | inserted (day : RelayDay) (batch : List RelayDay)

/-- `leaving` are tasks whose unit has left the in-flight set, and whose permit is not yet free. -/
structure Scraper where
  state : ScrapeState
  /-- The URLs of the table, in its order. -/
  known : List (List Char)
  /-- The last reading of the clock. -/
  clock : ℕ
  stage : ScraperStage
  percentile : ℕ
  blocks : List Char → Option BlockPos
  inFlight : Finset (List Char)
  permits : ℕ
  units : List ScrapeUnit
  leaving : ℕ

/-- `state.relays()`. -/
def Scraper.table (s : Scraper) : RelayTable :=
  s.known.filterMap fun u => (s.state.relays u).map fun info => (u, info)

/-- `trim_end_matches('/')`. -/
def trimSlashes (url : List Char) : List Char := (url.reverse.dropWhile fun c => c = '/').reverse

/-- The records found are those of the table, or new ones, with their number of sources. -/
def discovered (table : List Char → Option RelayInfo) (found : List (List Char × ℕ)) : RelayTable :=
  found.map fun f => (f.1, { (table f.1).getD {} with sources := f.2 })

/-- The relays that a pass releases: those set aside for any other reason than their document. -/
def released (table : RelayTable) : RelayTable :=
  (table.filter fun t => t.2.deadUntil.isSome && decide (t.2.nip11 ≠ some false)).map fun t =>
    (t.1, { t.2 with deadUntil := none, fails := 0 })

/-- `reset_relay`. -/
def ScrapeState.resetRelay (st : ScrapeState) (url : List Char) : Option ScrapeState :=
  (st.relays url).map fun old => st.putRelay url { sources := old.sources }

/-- `concurrency.max(1)`. -/
def batchSize (cfg : ScrapeConfig) : ℕ := max cfg.concurrency 1

inductive ScraperAct
  /-- discovery reads the table -/
  | discover (found : List (List Char × ℕ))
  | pin (url : List Char)
  /-- a pass begins, and reads the table for the release -/
  | begin
  | write
  /-- what is to be released is released -/
  | start (percentile : ℕ)
  | relays
  | plan (call : PlanCall)
  /-- a relay of the order: is it passed over? -/
  | look
  | walk
  /-- the batch is empty, and units are in flight -/
  | again
  | take
  /-- the batch is empty, and nothing is in flight -/
  | leave (now : ℕ)
  | acquire
  | insert
  | spawn
  | drained
  | unit (i : ℕ) (a : UnitAct)
  /-- a unit that is over leaves the in-flight set -/
  | gone (i : ℕ)
  | dropPermit
  | reset (url : List Char)

/-- The clock after an act that begins when it shows `clock`. -/
def UnitAct.tick (clock : ℕ) : UnitAct → Option ℕ
  | .begin now => if clock ≤ now then some now else none
  | .succeed _ _ now => if clock ≤ now then some now else none
  | .fail now now' => if clock ≤ now ∧ now ≤ now' then some now' else none
  | _ => some clock

/-- The URLs of the table after a write under `url`. -/
def addKey (known : List (List Char)) (url : List Char) : List (List Char) :=
  if url ∈ known then known else known ++ [url]

theorem mem_addKey {known : List (List Char)} {url u : List Char} :
    u ∈ addKey known url ↔ u ∈ known ∨ u = url := by
  unfold addKey
  split
  case isTrue hin => exact ⟨Or.inl, fun h => h.elim id fun heq => heq ▸ hin⟩
  case isFalse => rw [List.mem_append, List.mem_singleton]

/-- `put_relay`. -/
def Scraper.put (s : Scraper) (url : List Char) (info : RelayInfo) : Scraper :=
  { s with state := s.state.putRelay url info, known := addKey s.known url }

/-- The next relay of the order. -/
def Scraper.looks (s : Scraper) (call : PlanCall) (idx : ℕ) : Option (List Char × RelayInfo) :=
  (call.targets[idx]?).filter fun t => !skips call.now s.inFlight t.1 t.2

/-- One step of the planning task. -/
def planStep (cfg : ScrapeConfig) (s : Scraper) : ScraperAct → Option Scraper
  | .discover found =>
    match s.stage with
    | .idle => some { s with stage := .writing (discovered s.state.relays found) false }
    | _ => none
  | .pin url =>
    match s.stage with
    | .idle =>
      if ∃ t ∈ s.table, trimSlashes t.1 = trimSlashes url then some s
      else some (s.put (trimSlashes url) {})
    | _ => none
  | .begin =>
    match s.stage with
    | .idle => some { s with stage := .writing (released s.table) true }
    | _ => none
  | .write =>
    match s.stage with
    | .writing (t :: todo) inPass => some { s.put t.1 t.2 with stage := .writing todo inPass }
    | .writing [] false => some { s with stage := .idle }
    | _ => none
  | .start percentile =>
    match s.stage with
    | .writing [] true =>
      some
        { s with
          stage := .ready
          percentile := percentile
          blocks := fun _ => none
          inFlight := ∅
          permits := batchSize cfg
          leaving := 0 }
    | _ => none
  | .relays =>
    match s.stage with
    | .ready =>
      let targets := scrapeTargets s.table s.percentile cfg.concurrency cfg.pinnedRelays
      some { s with stage := .scope targets }
    | _ => none
  | .plan call =>
    match s.stage with
    | .scope targets =>
      if call.targets = targets ∧ call.limit = batchSize cfg ∧ s.clock ≤ call.now then
        some { s with clock := call.now, stage := .planning call call.order [] none [] }
      else none
    | _ => none
  | .look =>
    match s.stage with
    | .planning call (idx :: todo) out none looked =>
      if out.length < call.limit then
        some { s with stage := .planning call todo out (s.looks call idx) looked }
      else none
    | _ => none
  | .walk =>
    match s.stage with
    | .planning call todo out (some (url, info)) looked =>
      let walked := walkFrom cfg s.state call url (s.blocks url)
      some
        { s with
          blocks := Function.update s.blocks url (some walked.1)
          stage := .planning call todo (out ++ (walked.2.map (relayDay url info)).toList) none
            (looked ++ [url]) }
    | _ => none
  | .again =>
    match s.stage with
    | .planning _ [] [] none _ => if s.inFlight = ∅ then none else some { s with stage := .ready }
    | _ => none
  | .take =>
    match s.stage with
    | .planning call todo (day :: out) none _ =>
      if todo = [] ∨ call.limit ≤ (day :: out).length then
        some { s with stage := .drain (day :: out) }
      else none
    | _ => none
  | .leave now =>
    match s.stage with
    | .planning _ [] [] none _ =>
      if s.inFlight = ∅ ∧ s.clock ≤ now then some { s with clock := now, stage := .idle } else none
    | _ => none
  | .acquire =>
    match s.stage with
    | .drain (day :: batch) =>
      if 0 < s.permits then
        some { s with permits := s.permits - 1, stage := .granted day batch }
      else none
    | _ => none
  | .insert =>
    match s.stage with
    | .granted day batch =>
      some { s with inFlight := insert day.url s.inFlight, stage := .inserted day batch }
    | _ => none
  | .spawn =>
    match s.stage with
    | .inserted day batch =>
      some { s with units := s.units ++ [⟨day, .begun⟩], stage := .drain batch }
    | _ => none
  | .drained =>
    match s.stage with
    | .drain [] => some { s with stage := .ready }
    | _ => none
  | _ => none

/-- One step of a unit's task, or of the administrator. -/
def taskStep (cfg : ScrapeConfig) (s : Scraper) : ScraperAct → Option Scraper
  | .unit i a => do
    let u ← s.units[i]?
    let clock ← a.tick s.clock
    let r ← unitStep cfg (s.state, u) a
    some
      { s with
        state := r.1
        known := addKey s.known u.day.url
        units := s.units.set i r.2
        clock := clock }
  | .gone i => do
    let u ← s.units[i]?
    if u.stage = .over then
      some
        { s with
          units := s.units.eraseIdx i
          inFlight := s.inFlight.erase u.day.url
          leaving := s.leaving + 1 }
    else none
  | .dropPermit =>
    if 0 < s.leaving then some { s with leaving := s.leaving - 1, permits := s.permits + 1 }
    else none
  | .reset url => (s.state.resetRelay url).map fun st => { s with state := st }
  | _ => none

/-- One step of the scraper. -/
def scraperStep (cfg : ScrapeConfig) (s : Scraper) (a : ScraperAct) : Option Scraper :=
  (planStep cfg s a).or (taskStep cfg s a)

/-- The scraper is started on a state directory. -/
def scraperStart (cfg : ScrapeConfig) (st : ScrapeState) (known : List (List Char)) : Scraper :=
  { state := st, known := known, clock := 0, stage := .idle, percentile := 0
    blocks := fun _ => none, inFlight := ∅, permits := batchSize cfg, units := [], leaving := 0 }

/-! ## What a step can do -/

/-- The steps of the planning task. -/
inductive PlanMove (cfg : ScrapeConfig) (s : Scraper) : ScraperAct → Scraper → Prop
  | discover (found : List (List Char × ℕ)) (hstage : s.stage = .idle) :
      PlanMove cfg s (.discover found)
        { s with stage := .writing (discovered s.state.relays found) false }
  | pinned (url : List Char) (hstage : s.stage = .idle) : PlanMove cfg s (.pin url) s
  | pin (url : List Char) (hstage : s.stage = .idle)
      (hnew : ∀ t ∈ s.table, trimSlashes t.1 ≠ trimSlashes url) :
      PlanMove cfg s (.pin url) (s.put (trimSlashes url) {})
  | begin (hstage : s.stage = .idle) :
      PlanMove cfg s .begin { s with stage := .writing (released s.table) true }
  | write (t : List Char × RelayInfo) (todo : RelayTable) (inPass : Bool)
      (hstage : s.stage = .writing (t :: todo) inPass) :
      PlanMove cfg s .write { s.put t.1 t.2 with stage := .writing todo inPass }
  | written (hstage : s.stage = .writing [] false) :
      PlanMove cfg s .write { s with stage := .idle }
  | start (percentile : ℕ) (hstage : s.stage = .writing [] true) :
      PlanMove cfg s (.start percentile)
        { s with
          stage := .ready
          percentile := percentile
          blocks := fun _ => none
          inFlight := ∅
          permits := batchSize cfg
          leaving := 0 }
  | relays (hstage : s.stage = .ready) :
      PlanMove cfg s .relays
        { s with
          stage := .scope (scrapeTargets s.table s.percentile cfg.concurrency cfg.pinnedRelays) }
  | plan (call : PlanCall) (hstage : s.stage = .scope call.targets)
      (hlimit : call.limit = batchSize cfg) (hclock : s.clock ≤ call.now) :
      PlanMove cfg s (.plan call)
        { s with clock := call.now, stage := .planning call call.order [] none [] }
  | look (call : PlanCall) (idx : ℕ) (todo : List ℕ) (out : List RelayDay)
      (looked : List (List Char)) (hstage : s.stage = .planning call (idx :: todo) out none looked)
      (hroom : out.length < call.limit) :
      PlanMove cfg s .look { s with stage := .planning call todo out (s.looks call idx) looked }
  | walk (call : PlanCall) (todo : List ℕ) (out : List RelayDay) (url : List Char)
      (info : RelayInfo) (looked : List (List Char))
      (hstage : s.stage = .planning call todo out (some (url, info)) looked) :
      PlanMove cfg s .walk
        { s with
          blocks := Function.update s.blocks url
            (some (walkFrom cfg s.state call url (s.blocks url)).1)
          stage := .planning call todo
            (out ++ ((walkFrom cfg s.state call url (s.blocks url)).2.map
              (relayDay url info)).toList) none (looked ++ [url]) }
  | again (call : PlanCall) (looked : List (List Char))
      (hstage : s.stage = .planning call [] [] none looked) (hflight : s.inFlight ≠ ∅) :
      PlanMove cfg s .again { s with stage := .ready }
  | take (call : PlanCall) (todo : List ℕ) (day : RelayDay) (out : List RelayDay)
      (looked : List (List Char)) (hstage : s.stage = .planning call todo (day :: out) none looked)
      (hend : todo = [] ∨ call.limit ≤ (day :: out).length) :
      PlanMove cfg s .take { s with stage := .drain (day :: out) }
  | leave (now : ℕ) (call : PlanCall) (looked : List (List Char))
      (hstage : s.stage = .planning call [] [] none looked) (hflight : s.inFlight = ∅)
      (hclock : s.clock ≤ now) :
      PlanMove cfg s (.leave now) { s with clock := now, stage := .idle }
  | acquire (day : RelayDay) (batch : List RelayDay) (hstage : s.stage = .drain (day :: batch))
      (hpermit : 0 < s.permits) :
      PlanMove cfg s .acquire { s with permits := s.permits - 1, stage := .granted day batch }
  | insert (day : RelayDay) (batch : List RelayDay) (hstage : s.stage = .granted day batch) :
      PlanMove cfg s .insert
        { s with inFlight := insert day.url s.inFlight, stage := .inserted day batch }
  | spawn (day : RelayDay) (batch : List RelayDay) (hstage : s.stage = .inserted day batch) :
      PlanMove cfg s .spawn { s with units := s.units ++ [⟨day, .begun⟩], stage := .drain batch }
  | drained (hstage : s.stage = .drain []) : PlanMove cfg s .drained { s with stage := .ready }

/-- The steps of the units' tasks, and of the administrator. -/
inductive TaskMove (cfg : ScrapeConfig) (s : Scraper) : ScraperAct → Scraper → Prop
  | unit (i : ℕ) (a : UnitAct) (u u' : ScrapeUnit) (st' : ScrapeState) (clock : ℕ)
      (hu : s.units[i]? = some u) (htick : a.tick s.clock = some clock)
      (hstep : unitStep cfg (s.state, u) a = some (st', u')) :
      TaskMove cfg s (.unit i a)
        { s with
          state := st'
          known := addKey s.known u.day.url
          units := s.units.set i u'
          clock := clock }
  | gone (i : ℕ) (u : ScrapeUnit) (hu : s.units[i]? = some u) (hover : u.stage = .over) :
      TaskMove cfg s (.gone i)
        { s with
          units := s.units.eraseIdx i
          inFlight := s.inFlight.erase u.day.url
          leaving := s.leaving + 1 }
  | dropPermit (hleaving : 0 < s.leaving) :
      TaskMove cfg s .dropPermit { s with leaving := s.leaving - 1, permits := s.permits + 1 }
  | reset (url : List Char) (old : RelayInfo) (hold : s.state.relays url = some old) :
      TaskMove cfg s (.reset url)
        { s with state := s.state.putRelay url { sources := old.sources } }

theorem planMove_of_step {cfg : ScrapeConfig} {s s' : Scraper} {a : ScraperAct}
    (h : planStep cfg s a = some s') : PlanMove cfg s a s' := by
  cases a with
  | discover found =>
    simp only [planStep] at h
    split at h
    · cases h
      exact .discover found ‹_›
    · cases h
  | pin url =>
    simp only [planStep] at h
    split at h
    · split at h
      · cases h
        exact .pinned url ‹_›
      case isFalse hno =>
        cases h
        exact .pin url ‹_› fun t ht heq => hno ⟨t, ht, heq⟩
    · cases h
  | begin =>
    simp only [planStep] at h
    split at h
    · cases h
      exact .begin ‹_›
    · cases h
  | write =>
    simp only [planStep] at h
    split at h
    · cases h
      exact .write _ _ _ ‹_›
    · cases h
      exact .written ‹_›
    · cases h
  | start percentile =>
    simp only [planStep] at h
    split at h
    · cases h
      exact .start percentile ‹_›
    · cases h
  | relays =>
    simp only [planStep] at h
    split at h
    · cases h
      exact .relays ‹_›
    · cases h
  | plan call =>
    simp only [planStep] at h
    split at h
    case h_1 targets hstage =>
      split at h
      case isTrue hcall =>
        cases h
        obtain ⟨rfl, hlimit, hclock⟩ := hcall
        exact .plan call hstage hlimit hclock
      case isFalse => cases h
    · cases h
  | look =>
    simp only [planStep] at h
    split at h
    · split at h
      · cases h
        exact .look _ _ _ _ _ ‹_› ‹_›
      · cases h
    · cases h
  | walk =>
    simp only [planStep] at h
    split at h
    · cases h
      exact .walk _ _ _ _ _ _ ‹_›
    · cases h
  | again =>
    simp only [planStep] at h
    split at h
    · split at h
      · cases h
      · cases h
        exact .again _ _ ‹_› ‹_›
    · cases h
  | take =>
    simp only [planStep] at h
    split at h
    · split at h
      · cases h
        exact .take _ _ _ _ _ ‹_› ‹_›
      · cases h
    · cases h
  | leave now =>
    simp only [planStep] at h
    split at h
    · split at h
      case isTrue hand =>
        cases h
        exact .leave now _ _ ‹_› hand.1 hand.2
      case isFalse => cases h
    · cases h
  | acquire =>
    simp only [planStep] at h
    split at h
    · split at h
      · cases h
        exact .acquire _ _ ‹_› ‹_›
      · cases h
    · cases h
  | insert =>
    simp only [planStep] at h
    split at h
    · cases h
      exact .insert _ _ ‹_›
    · cases h
  | spawn =>
    simp only [planStep] at h
    split at h
    · cases h
      exact .spawn _ _ ‹_›
    · cases h
  | drained =>
    simp only [planStep] at h
    split at h
    · cases h
      exact .drained ‹_›
    · cases h
  | _ => cases h

theorem taskMove_of_step {cfg : ScrapeConfig} {s s' : Scraper} {a : ScraperAct}
    (h : taskStep cfg s a = some s') : TaskMove cfg s a s' := by
  cases a with
  | unit i a =>
    simp only [taskStep, Option.bind_eq_bind, Option.bind_eq_some_iff, Option.some.injEq] at h
    obtain ⟨u, hu, clock, htick, r, hstep, rfl⟩ := h
    exact .unit i a u r.2 r.1 clock hu htick hstep
  | gone i =>
    simp only [taskStep, Option.bind_eq_bind, Option.bind_eq_some_iff] at h
    obtain ⟨u, hu, h⟩ := h
    split at h
    · cases h
      exact .gone i u hu ‹_›
    · cases h
  | dropPermit =>
    simp only [taskStep] at h
    split at h
    · cases h
      exact .dropPermit ‹_›
    · cases h
  | reset url =>
    simp only [taskStep, ScrapeState.resetRelay, Option.map_map, Option.map_eq_some_iff] at h
    obtain ⟨old, hold, rfl⟩ := h
    exact .reset url old hold
  | _ => cases h

/-- **What a step can do.** -/
theorem moves_of_step {cfg : ScrapeConfig} {s s' : Scraper} {a : ScraperAct}
    (h : scraperStep cfg s a = some s') : PlanMove cfg s a s' ∨ TaskMove cfg s a s' := by
  unfold scraperStep at h
  rcases Option.or_eq_some_iff.mp h with hplan | ⟨-, htask⟩
  · exact Or.inl (planMove_of_step hplan)
  · exact Or.inr (taskMove_of_step htask)

theorem UnitAct.le_tick {clock clock' : ℕ} {a : UnitAct} (h : a.tick clock = some clock') :
    clock ≤ clock' := by
  unfold tick at h
  split at h
  · split at h
    · cases h
      assumption
    · cases h
  · split at h
    · cases h
      assumption
    · cases h
  · split at h
    case isTrue hle =>
      cases h
      omega
    case isFalse => cases h
  · cases h
    exact le_refl _

/-- The clock does not go back. -/
theorem clock_le_of_step {cfg : ScrapeConfig} {s s' : Scraper} {a : ScraperAct}
    (h : scraperStep cfg s a = some s') : s.clock ≤ s'.clock := by
  rcases moves_of_step h with hmove | hmove
  · cases hmove with
    | plan call hstage hlimit hclock => exact hclock
    | leave now call looked hstage hflight hclock => exact hclock
    | _ => exact le_refl _
  · cases hmove with
    | unit i a u u' st' clock hu htick hunit => exact UnitAct.le_tick htick
    | _ => exact le_refl _

/-! ## One relay with two open days -/

/-- A relay that is known to be one. -/
def openRelay : RelayInfo := { sources := 1, nip11 := some true, nip11At := someDay }

/-- A table of one relay, no day of which is recorded. -/
def stateOf (info : RelayInfo) : ScrapeState := blankState.putRelay "wss://r".toList info

/-- It has no other record. -/
theorem stateOf_relays {info info' : RelayInfo} {url : List Char}
    (h : (stateOf info).relays url = some info') : url ∈ ["wss://r".toList] := by
  by_contra hne
  rw [List.mem_singleton] at hne
  have hnone : (stateOf info).relays url = none := Function.update_of_ne hne ..
  rw [hnone] at h
  cases h

/-- A call for this relay. -/
def callFor (info : RelayInfo) (now : ℕ) : PlanCall where
  targets := [("wss://r".toList, info)]
  urls := List.nodup_singleton _
  limit := 50
  order := [0]
  shuffled := perm_range_one
  draw := fun _ => 0
  now := now
  clock := fun _ _ _ => now

/-- An hour into 2023-11-17. -/
def earlyOn : ℕ := someDay + 176400

/-- The older of its two days. -/
def olderDay (info : RelayInfo) : RelayDay :=
  relayDay "wss://r".toList info ("2023-11-15".toList, someDay, someDay + 86400)

/-- The walk draws it. -/
theorem walkFrom_olderDay {st : ScrapeState} (hst : st.days = fun _ => none) (info : RelayInfo)
    {pos : Option BlockPos} (hpos : pos.getD (.block 0) = .block 0) :
    walkFrom floorConfig st (callFor info earlyOn) "wss://r".toList pos =
      (.block 0, some ("2023-11-15".toList, someDay, someDay + 86400)) := by
  -- the days do not depend on the records
  have hdays : openDays floorConfig st (callFor info earlyOn) "wss://r".toList 0 =
      openDays floorConfig blankState (callFor {} earlyOn) "wss://r".toList 0 := by
    cases st
    cases hst
    rfl
  have hchoose : choose (openDays floorConfig blankState (callFor {} earlyOn) "wss://r".toList 0)
      ((callFor {} earlyOn).draw "wss://r".toList) =
        some ("2023-11-15".toList, someDay, someDay + 86400) := by decide
  have hfloor : ¬ (blockWindow (dayStart (callFor info earlyOn).now) 0).2 ≤
      floorConfig.minDate := by
    show ¬ (blockWindow (dayStart earlyOn) 0).2 ≤ floorConfig.minDate
    decide
  have hdraw : (callFor info earlyOn).draw = (callFor {} earlyOn).draw := rfl
  rw [walkFrom, hpos]
  dsimp only
  rw [walkBlocks, if_neg hfloor, hdays, hdraw, hchoose]

/-- The walk of the only relay. -/
theorem walk_olderDay {s : Scraper} {info : RelayInfo} (hst : s.state.days = fun _ => none)
    (hblocks : (s.blocks "wss://r".toList).getD (.block 0) = .block 0)
    (hstage : s.stage = .planning (callFor info earlyOn) [] [] (some ("wss://r".toList, info)) []) :
    scraperStep floorConfig s .walk =
      some { s with
        blocks := Function.update s.blocks "wss://r".toList (some (.block 0))
        stage := .planning (callFor info earlyOn) [] [olderDay info] none ["wss://r".toList] } := by
  rw [scraperStep, planStep, hstage]
  dsimp only
  rw [walkFrom_olderDay hst info hblocks]
  rfl

/-- A pass up to its first walk. -/
def toTheWalk (info : RelayInfo) : List ScraperAct :=
  [.begin, .start 100, .relays, .plan (callFor info earlyOn), .look]

/-- From there to the start of the unit. -/
def toTheUnit : List ScraperAct := [.walk, .take, .acquire, .insert, .spawn]

/-- The pass with its first unit running. -/
def firstUnit (info : RelayInfo) : Scraper where
  state := stateOf info
  known := ["wss://r".toList]
  clock := earlyOn
  stage := .drain []
  percentile := 100
  blocks := Function.update (fun _ => none) "wss://r".toList (some (.block 0))
  inFlight := {"wss://r".toList}
  permits := 49
  units := [⟨olderDay info, .begun⟩]
  leaving := 0

theorem run_firstUnit :
    run (scraperStep floorConfig)
      (scraperStart floorConfig (stateOf openRelay) ["wss://r".toList])
        (toTheWalk openRelay ++ toTheUnit) = some (firstUnit openRelay) :=
  run_append_some.mpr ⟨_, rfl, run_cons_some.mpr ⟨_, walk_olderDay rfl rfl rfl, rfl⟩⟩

end NostrSearch.Indexer
