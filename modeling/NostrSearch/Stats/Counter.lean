import NostrSearch.Core.Num
import NostrSearch.Core.Shard
import NostrSearch.Lib.Patches

/-!
# Counts and the buckets they are kept in

`TrustedCount` is a count split by whether the publisher is inside the web of trust. The reports
keep counts by UTC day, by week and by calendar month, each under the timestamp it starts at.
-/

namespace NostrSearch.Stats

open NostrSearch.Core NostrSearch.Lib

def DAY : ℕ := 60 * 60 * 24

def WEEK : ℕ := DAY * 7

def dayStart (ts : ℕ) : ℕ := ts - ts % DAY

def weekStart (ts : ℕ) : ℕ := ts - ts % WEEK

/-- The first second of the month of `ts` as a `u64`. A timestamp the calendar does not cover is
kept under its day. -/
def monthStart (ts : ℕ) : ℕ :=
  match ShardId.ofTimestampOpt (asI64 ts) with
  | none => ts - ts % DAY
  | some id => ((id.firstDay * 86400) % 2 ^ 64).toNat

-- 2023-11-14 belongs to the month that starts on 2023-11-01
example : monthStart 1700000000 = 1698796800 := by decide

/-- A count split by whether the publisher is inside the web of trust. -/
structure TrustedCount where
  trusted : ℕ := 0
  untrusted : ℕ := 0
deriving DecidableEq

namespace TrustedCount

/-- Add `amount` to the trusted or untrusted side. -/
def incr (c : TrustedCount) (isTrusted : Bool) (amount : ℕ) : TrustedCount :=
  if isTrusted then { c with trusted := wrapAdd c.trusted amount }
  else { c with untrusted := wrapAdd c.untrusted amount }

def merge (c other : TrustedCount) : TrustedCount :=
  { trusted := wrapAdd c.trusted other.trusted
    untrusted := wrapAdd c.untrusted other.untrusted }

def json (c : TrustedCount) : Json :=
  Json.record [("trusted", .num c.trusted), ("untrusted", .num c.untrusted)]

/-- One count replaces another. -/
theorem mergePatch_json (c c₀ : TrustedCount) : Json.mergePatch c.json c₀.json = c.json := by
  apply Json.mergePatch_record
  have hnum : ∀ n : ℕ, Json.num n ≠ Json.null := fun n h => by cases h
  exact .cons (hnum _) (Json.mergePatch_num _ _) (.cons (hnum _) (Json.mergePatch_num _ _) .nil)

/-- Counts as the values of a report. -/
def layout : Layout TrustedCount :=
  Layout.replacing json (fun _ => Json.record_ne_null _) mergePatch_json

end TrustedCount

end NostrSearch.Stats
