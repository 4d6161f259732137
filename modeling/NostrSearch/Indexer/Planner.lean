import NostrSearch.Core.Dates
import NostrSearch.Indexer.Scrape
import NostrSearch.Lib.Run

/-!
# The scrape planner

`plan_batch` and the pass it is called from. Each relay walks backwards through blocks of 30 days,
counted from yesterday; `blocks` remembers the block it has come to, and is shared by all calls of
a pass. A call has its own view of the relays, its own random choices and its own readings of the
clock, all of them in `PlanCall`; between two calls units are started, finish and fail.

`Plan.looked` and `Pass.walkedAt` are history: the relays a call came to before its batch was full,
and the day a cursor was last moved on.
-/

namespace NostrSearch.Indexer

open NostrSearch.Core NostrSearch.Lib

/-! ## Days and blocks -/

/-- Days in one backfill window. -/
def BLOCK_DAYS : ℕ := 30

/-- `block_window`. -/
def blockWindow (todayStart k : ℕ) : ℕ × ℕ :=
  let stop := todayStart - k * BLOCK_DAYS * 86400
  (stop - BLOCK_DAYS * 86400, stop)

/-- The next block ends earlier, unless this one ends at the floor. -/
theorem blockWindow_lt {todayStart minDate k : ℕ} (h : ¬ (blockWindow todayStart k).2 ≤ minDate) :
    (blockWindow todayStart (k + 1)).2 < (blockWindow todayStart k).2 := by
  unfold blockWindow BLOCK_DAYS at *
  dsimp only at *
  omega

/-- `now - (now % 86_400)`. -/
def dayStart (now : ℕ) : ℕ := now - now % 86400

/-- `day_bounds`, with the clock at `now`. -/
def dayBounds (now daysBack : ℕ) : List Char × ℕ × ℕ :=
  let start := dayStart now - daysBack * 86400
  (dateText (start / 86400 : ℕ), start, start + 86400)

/-- The parts of a record's key come apart. -/
theorem dayKey_inj {date date' url url' : List Char} (hdate : '|' ∉ date) (hdate' : '|' ∉ date')
    (h : dayKey date url = dayKey date' url') : date = date' ∧ url = url' := by
  unfold dayKey at h
  simp only [List.append_assoc, List.cons_append, List.nil_append, List.cons.injEq, true_and] at h
  exact split_at_first hdate hdate' h

/-- Recording a day of a relay leaves the other days, and the other relays, as they were. -/
theorem dayDone_putDay_of_ne (st : ScrapeState) (done : DayDone) {start start' : ℕ}
    {url url' : List Char} (h : start / 86400 ≠ start' / 86400 ∨ url ≠ url') :
    (st.putDay (dateText (start / 86400 : ℕ)) url done).dayDone
        (dateText (start' / 86400 : ℕ)) url' =
      st.dayDone (dateText (start' / 86400 : ℕ)) url' := by
  rw [ScrapeState.putDay_dayDone, if_neg]
  intro hkey
  obtain ⟨hdate, hurl⟩ := dayKey_inj (bar_notMem_dateText _) (bar_notMem_dateText _) hkey
  have hday := dateText_injective (year_nonneg (Int.natCast_nonneg _))
    (year_nonneg (Int.natCast_nonneg _)) hdate
  rcases h with h | h
  · omega
  · exact h hurl.symm

/-- `fail_backoff_secs`. -/
def failBackoffSecs (fails : ℕ) : ℕ :=
  if fails = 0 then 0 else min (60 * 2 ^ min fails 6) 3600

/-! ## One call -/

/-- The position of a relay in the backwards walk: the block its next open day is in, or
`u64::MAX`, when its whole range is done. -/
inductive BlockPos
  | block (k : ℕ)
  | parked
deriving DecidableEq

/-- `RelayDay`. -/
structure RelayDay where
  url : List Char
  info : RelayInfo
  date : List Char
  start : ℕ
  stop : ℕ
deriving DecidableEq

/-- What a call of `plan_batch` is made with: the relays, which are keyed by their URL, a shuffle of
them, a draw for each relay, the clock at its start and at each call of `day_bounds`. -/
structure PlanCall where
  targets : List (List Char × RelayInfo)
  urls : (targets.map Prod.fst).Nodup
  limit : ℕ
  order : List ℕ
  shuffled : order.Perm (List.range targets.length)
  draw : List Char → ℕ
  now : ℕ
  clock : List Char → ℕ → ℕ → ℕ

/-- A call for one relay has one order. -/
theorem perm_range_one : [0].Perm (List.range 1) := List.Perm.refl _

/-- `now < t`, where `t` is the end of the backoff. -/
def RelayInfo.backsOff (info : RelayInfo) (now : ℕ) : Bool :=
  decide (0 < info.fails ∧ now < min (info.lastFail + failBackoffSecs info.fails) (2 ^ 64 - 1))

/-- The relays that are passed over: dead, backing off, being scraped, or no relays. -/
def skips (now : ℕ) (inFlight : Finset (List Char)) (url : List Char) (info : RelayInfo) : Bool :=
  info.deadUntil.any (fun t => decide (now < t)) || info.backsOff now ||
    decide (url ∈ inFlight) || decide (info.nip11 = some false)

/-- The unfinished days of a block. -/
def openDays (cfg : ScrapeConfig) (st : ScrapeState) (call : PlanCall) (url : List Char) (k : ℕ) :
    List (List Char × ℕ × ℕ) :=
  let todayStart := dayStart call.now
  let lo := max (blockWindow todayStart k).1 cfg.minDate
  let hi := min (blockWindow todayStart k).2 todayStart
  (List.range ((hi - lo) / 86400)).filterMap fun off =>
    let back := (todayStart - (lo + off * 86400)) / 86400
    let (date, start, stop) := dayBounds (call.clock url k off) back
    if start < lo ∨ hi ≤ start then none
    else if st.dayDone date url then none
    else some (date, start, stop)

/-- `choose`. -/
def choose {α : Type*} (xs : List α) (draw : ℕ) : Option α := xs[draw % xs.length]?

/-- The walk of one relay from block `k` on, to the first block with an open day. -/
def walkBlocks {α : Type*} (todayStart minDate : ℕ) (openIn : ℕ → List α) (draw k : ℕ) :
    BlockPos × Option α :=
  if (blockWindow todayStart k).2 ≤ minDate then (.parked, none)
  else
    match choose (openIn k) draw with
    | some day => (.block k, some day)
    | none => walkBlocks todayStart minDate openIn draw (k + 1)
termination_by (blockWindow todayStart k).2
decreasing_by
  rename_i hfloor
  exact blockWindow_lt hfloor

/-- The walk of one relay from where it stands. -/
def walkFrom (cfg : ScrapeConfig) (st : ScrapeState) (call : PlanCall) (url : List Char)
    (pos : Option BlockPos) : BlockPos × Option (List Char × ℕ × ℕ) :=
  match pos.getD (.block 0) with
  | .parked => (.parked, none)
  | .block k =>
    walkBlocks (dayStart call.now) cfg.minDate (openDays cfg st call url) (call.draw url) k

/-- The state of a pass: what is recorded, the cursors, the relays being scraped, and the last time
the planner looked at the clock. -/
structure Pass where
  state : ScrapeState
  blocks : List Char → Option BlockPos
  inFlight : Finset (List Char)
  clock : ℕ
  walkedAt : List Char → ℕ

/-- A batch on its way. -/
structure Plan where
  out : List RelayDay
  blocks : List Char → Option BlockPos
  looked : List (List Char × RelayInfo)

/-- A day drawn for a relay. -/
def relayDay (url : List Char) (info : RelayInfo) (day : List Char × ℕ × ℕ) : RelayDay :=
  { url := url, info := info, date := day.1, start := day.2.1, stop := day.2.2 }

/-- One relay of the shuffled order. -/
def planRelay (cfg : ScrapeConfig) (p : Pass) (call : PlanCall) (url : List Char)
    (info : RelayInfo) (q : Plan) : Plan :=
  if skips call.now p.inFlight url info then q
  else
    let walked := walkFrom cfg p.state call url (q.blocks url)
    { out := q.out ++ (walked.2.map (relayDay url info)).toList
      blocks := Function.update q.blocks url (some walked.1)
      looked := q.looked ++ [(url, info)] }

/-- The relays of the shuffled order, until the batch is full. -/
def planOrder (cfg : ScrapeConfig) (p : Pass) (call : PlanCall) : List ℕ → Plan → Plan
  | [], q => q
  | idx :: rest, q =>
    if call.limit ≤ q.out.length then q
    else
      match call.targets[idx]? with
      | none => planOrder cfg p call rest q
      | some (url, info) => planOrder cfg p call rest (planRelay cfg p call url info q)

/-- `plan_batch`. -/
def planBatch (cfg : ScrapeConfig) (p : Pass) (call : PlanCall) : Plan :=
  planOrder cfg p call call.order { out := [], blocks := p.blocks, looked := [] }

/-! ## A pass -/

/-- What happens in a pass. -/
inductive PassAct
  | plan (call : PlanCall)
  | start (url : List Char)
  | finish (url date : List Char) (info : RelayInfo) (start seen new now : ℕ)
  | fail (url : List Char) (info : RelayInfo)

/-- One step of a pass. The clock does not go back. -/
def passStep (cfg : ScrapeConfig) (p : Pass) : PassAct → Option Pass
  | .plan call =>
    if p.clock ≤ call.now then
      let q := planBatch cfg p call
      some { p with
        blocks := q.blocks
        clock := call.now
        walkedAt := fun url =>
          if url ∈ q.looked.map Prod.fst then dayStart call.now else p.walkedAt url }
    else none
  | .start url => some { p with inFlight := insert url p.inFlight }
  | .finish url date info start seen new now =>
    some { p with
      state := recordDone info date url start seen new now p.state
      inFlight := p.inFlight.erase url }
  | .fail url info =>
    some { p with state := p.state.putRelay url info, inFlight := p.inFlight.erase url }

/-- A pass begins without cursors and with nothing in flight. -/
def passStart (st : ScrapeState) : Pass :=
  { state := st, blocks := fun _ => none, inFlight := ∅, clock := 0, walkedAt := fun _ => 0 }

end NostrSearch.Indexer
