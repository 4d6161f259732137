import Mathlib.Tactic

/-!
# Time-based shard layout

The corpus is sharded by the month of `created_at`. `ShardId.fromTimestamp` is the map from
timestamps to months; the civil calendar it rests on is the proleptic Gregorian one, computed
from the day number by 400-year eras.
-/

namespace NostrSearch.Core

/-- One monthly shard. -/
structure ShardId where
  year : ℤ
  month : ℕ
deriving DecidableEq

/-- `ts as i64`: the same 64 bits read as a signed number. -/
def asI64 (ts : ℕ) : ℤ := if ts < 2 ^ 63 then ts else (ts : ℤ) - 2 ^ 64

/-- Year and month of a day, counted from 1970-01-01. Years start in March here, so that the
leap day is the last day of a year. -/
def ShardId.ofDays (days : ℤ) : ShardId :=
  let z := days + 719468
  let era := z / 146097
  let doe := (z % 146097).toNat
  let yoe := (doe - doe / 1460 + doe / 36524 - doe / 146096) / 365
  let doy := doe - (365 * yoe + yoe / 4 - yoe / 100)
  let mp := (5 * doy + 2) / 153
  let month := if mp < 10 then mp + 3 else mp - 9
  { year := yoe + era * 400 + (if month ≤ 2 then 1 else 0), month := month }

/-- Year and month of a unix timestamp in seconds. -/
def ShardId.ofUtc (secs : ℤ) : ShardId := ShardId.ofDays (secs / 86400)

/-- `Utc.timestamp_opt(secs, 0).single()`: the calendar covers these years only. -/
def ShardId.ofTimestampOpt (secs : ℤ) : Option ShardId :=
  let id := ShardId.ofUtc secs
  if -262143 ≤ id.year ∧ id.year ≤ 262142 then some id else none

/-- The shard that owns `created_at = ts`. A timestamp the calendar does not cover goes to
the month of `now`, what `Utc::now` reads at the call. -/
def ShardId.fromTimestamp (now ts : ℕ) : ShardId :=
  (ShardId.ofTimestampOpt (asI64 ts)).getD (ShardId.ofUtc now)

/-- The first day of a month, counted from 1970-01-01. -/
def ShardId.firstDay (id : ShardId) : ℤ :=
  let y := if id.month ≤ 2 then id.year - 1 else id.year
  let era := y / 400
  let yoe := (y % 400).toNat
  let doy := (153 * ((id.month + 9) % 12) + 2) / 5
  let doe := yoe * 365 + yoe / 4 - yoe / 100 + doy
  era * 146097 + doe - 719468

/-- On the calendar's range the owner of a timestamp does not depend on the clock. -/
theorem ShardId.fromTimestamp_eq_of_some {ts : ℕ} {id : ShardId}
    (h : ShardId.ofTimestampOpt (asI64 ts) = some id) (now : ℕ) :
    ShardId.fromTimestamp now ts = id := by
  rw [ShardId.fromTimestamp, h, Option.getD_some]

-- 2023-11-14, the timestamp of the source's own round-trip test
example : ShardId.fromTimestamp 0 1700000000 = { year := 2023, month := 11 } := by decide

end NostrSearch.Core
