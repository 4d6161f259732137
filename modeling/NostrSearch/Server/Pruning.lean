import NostrSearch.Core.ShardRange
import NostrSearch.Indexer.ShardWriter

/-!
# What pruning hides

A search reads the months `shards_in_range` lists, and `index_event` files an event under the month
of its `created_at`. An event in the time range of a search is in a listed month as long as the
range has an end that is a date. Without one the list ends at the current month, while the writer
takes events up to a day ahead of the clock; and an end that is a negative `i64` is a date before
1970, so that the list is empty.
-/

namespace NostrSearch.Server

open NostrSearch.Core NostrSearch.Indexer

/-- An event is in the time range of a search. -/
structure InRange (since til : Option ℕ) (createdAt : ℕ) : Prop where
  since_le : ∀ ts, since = some ts → ts ≤ createdAt
  lt_until : ∀ u, til = some u → createdAt < u

/-- The last second of the range is a date, and not one before 1970. -/
def EndsAtDate (til : Option ℕ) : Prop :=
  ∃ u, til = some u ∧ u - 1 < 2 ^ 63 ∧ (ShardId.ofTimestampOpt ((u - 1 : ℕ) : ℤ)).isSome = true

/-- The range has no last second, or one that is no date of the calendar. -/
def EndsAtNoDate (til : Option ℕ) : Prop :=
  ∀ u, til = some u → ShardId.ofTimestampOpt (asI64 (u - 1)) = none

/-- The range ends at a date, or it is cut off at the current month and the event is not filed
under a later one. -/
def Shown (now : ℕ) (til : Option ℕ) (createdAt : ℕ) : Prop :=
  EndsAtDate til ∨
    EndsAtNoDate til ∧ ShardId.fromTimestamp now createdAt ≤ ShardId.ofUtc now

/-! ## The dates of the calendar -/

/-- The last day of the calendar, in December 262142. -/
def lastDay : ℤ := 95026236

theorem isSome_ofTimestampOpt {secs : ℤ} (h : 0 ≤ secs) :
    (ShardId.ofTimestampOpt secs).isSome = true ↔ secs / 86400 ≤ lastDay := by
  have hlast : (ShardId.ofDays lastDay).year = 262142 := by decide
  have hnext : (ShardId.ofDays (lastDay + 1)).index = 12 * 262143 + 1 := by decide
  have hepoch : (ShardId.ofDays 0).index = 12 * 1970 + 1 := by decide
  have hvalid := ShardId.ofDays_month (secs / 86400)
  have hfirst := ShardId.index_mono (Int.ediv_nonneg h (by norm_num : (0 : ℤ) ≤ 86400))
  unfold ShardId.ofTimestampOpt ShardId.ofUtc
  dsimp only
  rw [hepoch] at hfirst
  unfold ShardId.index at hnext hfirst
  constructor
  · intro hsome
    by_contra hlate
    have hmono := ShardId.index_mono (show lastDay + 1 ≤ secs / 86400 by omega)
    unfold ShardId.index at hmono
    rw [if_neg (by omega)] at hsome
    cases hsome
  · intro hle
    have hmono := ShardId.index_mono hle
    have hmonth := ShardId.ofDays_month lastDay
    unfold ShardId.index at hmono
    rw [if_pos (by omega)]
    rfl

/-- A timestamp the calendar covers is filed under its own month. -/
theorem fromTimestamp_of_date {now ts : ℕ} (hts : ts < 2 ^ 63) (h : (ts : ℤ) / 86400 ≤ lastDay) :
    ShardId.fromTimestamp now ts = ShardId.ofUtc ts := by
  have hsome := (isSome_ofTimestampOpt (Int.natCast_nonneg ts)).mpr h
  rw [ShardId.fromTimestamp, asI64, if_pos hts]
  unfold ShardId.ofTimestampOpt at hsome ⊢
  dsimp only at hsome ⊢
  split at hsome
  case isTrue hyear => rw [if_pos hyear, Option.getD_some]
  case isFalse => cases hsome

/-- Any other goes to the current month. -/
theorem fromTimestamp_of_none {now ts : ℕ} (h : ShardId.ofTimestampOpt (asI64 ts) = none) :
    ShardId.fromTimestamp now ts = ShardId.ofUtc now := by
  rw [ShardId.fromTimestamp, h, Option.getD_none]

theorem fromTimestamp_of_late {now ts : ℕ} (hts : ts < 2 ^ 63) (h : lastDay < (ts : ℤ) / 86400) :
    ShardId.fromTimestamp now ts = ShardId.ofUtc now := by
  apply fromTimestamp_of_none
  rw [asI64, if_pos hts, ← Option.not_isSome_iff_eq_none,
    isSome_ofTimestampOpt (Int.natCast_nonneg ts)]
  omega

variable {now : ℕ} {since til : Option ℕ} {earliest : ShardId} {createdAt : ℕ}

/-- The clock shows a date, so that it is within the calendar. -/
theorem now_le_lastDay (hnow : (ShardId.ofTimestampOpt now).isSome = true) :
    (now : ℤ) / 86400 ≤ lastDay :=
  (isSome_ofTimestampOpt (Int.natCast_nonneg now)).mp hnow

/-- An accepted event is dated at most a day ahead. -/
theorem createdAt_le (haccept : isFuture now createdAt = false) : createdAt ≤ now + 86400 := by
  have h := of_decide_eq_false haccept
  have hle := satAdd_le now maxFutureSkewSecs
  unfold maxFutureSkewSecs at h hle
  omega

/-- Up to a day ahead of the clock, later timestamps are filed under later months. -/
theorem fromTimestamp_mono (hnow : (ShardId.ofTimestampOpt now).isSome = true) {ts ts' : ℕ}
    (h : ts ≤ ts') (hts' : ts' ≤ now + 86400) :
    ShardId.fromTimestamp now ts ≤ ShardId.fromTimestamp now ts' := by
  have hlast := now_le_lastDay hnow
  unfold lastDay at hlast
  by_cases hdate' : (ts' : ℤ) / 86400 ≤ lastDay
  · have hdate : (ts : ℤ) / 86400 ≤ lastDay := by omega
    unfold lastDay at hdate hdate'
    rw [fromTimestamp_of_date (by omega) hdate, fromTimestamp_of_date (by omega) hdate']
    exact ShardId.ofUtc_mono (by exact_mod_cast h)
  · rw [@fromTimestamp_of_late now ts' (by omega) (by omega)]
    by_cases hdate : (ts : ℤ) / 86400 ≤ lastDay
    · -- the clock is in the last days of the calendar, all of one month
      rw [fromTimestamp_of_date (by omega) hdate]
      unfold lastDay at hdate hdate'
      have hmonth : ShardId.ofDays 95026235 = ShardId.ofDays 95026236 := by decide
      have hle := ShardId.index_mono hdate
      have hge := ShardId.index_mono (show (95026235 : ℤ) ≤ (now : ℤ) / 86400 by omega)
      rw [hmonth] at hge
      rw [ShardId.le_iff_index (ShardId.ofUtc_valid _) (ShardId.ofUtc_valid _)]
      exact le_trans hle hge
    · rw [fromTimestamp_of_late (by omega) (by omega)]

/-- The event is not before the first month of the list. -/
theorem rangeStart_le (hnow : (ShardId.ofTimestampOpt now).isSome = true)
    (hin : InRange since til createdAt) (haccept : isFuture now createdAt = false)
    (hopen : since = none → earliest ≤ ShardId.fromTimestamp now createdAt) :
    rangeStart now since earliest ≤ ShardId.fromTimestamp now createdAt := by
  cases since with
  | none => exact hopen rfl
  | some ts =>
    rw [rangeStart, Option.map_some, Option.getD_some]
    exact fromTimestamp_mono hnow (hin.since_le ts rfl) (createdAt_le haccept)

/-- An event of 1970 or later is not filed under a month before. -/
theorem epoch_le (now ts : ℕ) (hts : ts < 2 ^ 63) :
    ShardId.ofUtc 0 ≤ ShardId.fromTimestamp now ts := by
  by_cases hdate : (ts : ℤ) / 86400 ≤ lastDay
  · rw [fromTimestamp_of_date hts hdate]
    exact ShardId.ofUtc_mono (Int.natCast_nonneg ts)
  · rw [fromTimestamp_of_late hts (by omega)]
    exact ShardId.ofUtc_mono (Int.natCast_nonneg now)

/-- A date before 1970 is in a month before. -/
theorem lt_epoch {secs : ℤ} (h : secs < 0) : ShardId.ofUtc secs < ShardId.ofUtc 0 := by
  have hlast : (ShardId.ofDays (-1)).index < (ShardId.ofDays 0).index := by decide
  have hmono := ShardId.index_mono (show secs / 86400 ≤ -1 by omega)
  rw [← not_le, ShardId.le_iff_index (ShardId.ofUtc_valid _) (ShardId.ofUtc_valid _)]
  unfold ShardId.ofUtc
  rw [Int.zero_ediv]
  omega

/-- A later date is not in an earlier month. -/
theorem fromTimestamp_le_date {last : ℕ} (hle : createdAt ≤ last) (h63 : last < 2 ^ 63)
    (hsome : (ShardId.ofTimestampOpt (last : ℤ)).isSome = true) :
    ShardId.fromTimestamp now createdAt ≤ ShardId.fromTimestamp now last := by
  have hdate := (isSome_ofTimestampOpt (Int.natCast_nonneg last)).mp hsome
  have hdate' : (createdAt : ℤ) / 86400 ≤ lastDay := by omega
  rw [fromTimestamp_of_date h63 hdate, fromTimestamp_of_date (by omega) hdate']
  exact ShardId.ofUtc_mono (by exact_mod_cast hle)

/-- A timestamp that is negative as `i64`, and a date, is in a month before 1970. -/
theorem fromTimestamp_lt_epoch {last : ℕ} {id : ShardId} (h63 : 2 ^ 63 ≤ last)
    (h64 : last < 2 ^ 64) (hopt : ShardId.ofTimestampOpt (asI64 last) = some id) :
    ShardId.fromTimestamp now last < ShardId.ofUtc 0 := by
  have hneg : asI64 last < 0 := by
    rw [asI64, if_neg (by omega)]
    omega
  have hid : id = ShardId.ofUtc (asI64 last) := by
    unfold ShardId.ofTimestampOpt at hopt
    dsimp only at hopt
    split at hopt
    · exact (Option.some.inj hopt).symm
    · cases hopt
  rw [ShardId.fromTimestamp_eq_of_some hopt, hid]
  exact lt_epoch hneg

/-- The event is not after the last month of the list if and only if it is shown. -/
theorem le_rangeStop_iff (hnow : (ShardId.ofTimestampOpt now).isSome = true)
    (hu64 : ∀ u, til = some u → u < 2 ^ 64) (hin : InRange since til createdAt)
    (haccept : isFuture now createdAt = false) :
    ShardId.fromTimestamp now createdAt ≤ rangeStop now til ↔ Shown now til createdAt := by
  have hlast := now_le_lastDay hnow
  have hcreated := createdAt_le haccept
  unfold lastDay at hlast
  cases til with
  | none =>
    rw [rangeStop, Option.map_none, Option.getD_none]
    constructor
    · exact fun h => Or.inr ⟨by rintro u ⟨⟩, h⟩
    · rintro (⟨u, hu, -⟩ | ⟨-, h⟩)
      · cases hu
      · exact h
  | some u =>
    have hlt := hin.lt_until u rfl
    rw [rangeStop, Option.map_some, Option.getD_some]
    cases hopt : ShardId.ofTimestampOpt (asI64 (u - 1)) with
    | none =>
      rw [fromTimestamp_of_none hopt]
      constructor
      · refine fun h => Or.inr ⟨fun v hv => ?_, h⟩
        cases hv
        exact hopt
      · rintro (⟨v, hv, hv63, hsome⟩ | ⟨-, h⟩)
        · cases hv
          rw [asI64, if_pos hv63] at hopt
          rw [hopt] at hsome
          cases hsome
        · exact h
    | some id =>
      by_cases h63 : u - 1 < 2 ^ 63
      · -- an end at a date: later than the event
        have hsome : (ShardId.ofTimestampOpt ((u - 1 : ℕ) : ℤ)).isSome = true := by
          rw [asI64, if_pos h63] at hopt
          rw [hopt]
          rfl
        exact iff_of_true (fromTimestamp_le_date (by omega) h63 hsome)
          (Or.inl ⟨u, rfl, h63, hsome⟩)
      · -- an end before 1970, and an event after it
        have h64 := hu64 u rfl
        have hend := @fromTimestamp_lt_epoch now _ _ (by omega) (by omega) hopt
        refine iff_of_false ?_ ?_
        · rw [not_le]
          exact lt_of_lt_of_le hend (epoch_le now createdAt (by omega))
        · rintro (⟨v, hv, hv63, -⟩ | ⟨hnone, -⟩)
          · cases hv
            exact h63 hv63
          · rw [hnone u rfl] at hopt
            cases hopt

/-- **Pruning.** The month an accepted event in the time range is filed under is listed if and only
if the range ends at a date from 1970 on, or it ends at none and the event is not filed under a
month after the current one. -/
theorem month_listed_iff (hnow : (ShardId.ofTimestampOpt now).isSome = true)
    (hu64 : ∀ u, til = some u → u < 2 ^ 64) (hearliest : earliest.Valid)
    (hin : InRange since til createdAt) (haccept : isFuture now createdAt = false)
    (hopen : since = none → earliest ≤ ShardId.fromTimestamp now createdAt) :
    (∃ out, shardsInRange now since til earliest = some out ∧
        ShardId.fromTimestamp now createdAt ∈ out) ↔
      Shown now til createdAt := by
  obtain ⟨out, hout, hmem⟩ := shardsInRange_spec hearliest now since til
  have hlist := hmem _ (ShardId.fromTimestamp_valid now createdAt)
  have hstart := rangeStart_le hnow hin haccept hopen
  rw [← le_rangeStop_iff hnow hu64 hin haccept]
  constructor
  · rintro ⟨out', hout', h⟩
    obtain rfl : out = out' := Option.some.inj (hout.symm.trans hout')
    exact (hlist.mp h).2
  · exact fun h => ⟨out, hout, hlist.mpr ⟨hstart, h⟩⟩

/-- November and December 2023, with an end that is a date. -/
theorem listed_with_a_date_end :
    ∃ out, shardsInRange 1701385200 (some 1698796800) (some 1702000000) ⟨2023, 1⟩ = some out ∧
      ShardId.fromTimestamp 1701385200 1701390600 ∈ out :=
  (month_listed_iff (by decide) (by rintro u ⟨⟩; norm_num) (by decide)
    ⟨by rintro ts ⟨⟩; norm_num, by rintro u ⟨⟩; norm_num⟩ (by decide)
    fun h => by cases h).mpr
    (Or.inl ⟨1702000000, rfl, by norm_num, by decide⟩)

/-- An `until` of `u64::MAX` hides everything, and an open one the first events of December as long
as the clock shows November. -/
theorem hidden_events :
    (InRange none (some (2 ^ 64 - 1)) 1700000000 ∧ isFuture 1701385200 1700000000 = false ∧
        (⟨2020, 11⟩ : ShardId) ≤ ShardId.fromTimestamp 1701385200 1700000000 ∧
        shardsInRange 1701385200 none (some (2 ^ 64 - 1)) ⟨2020, 11⟩ = some []) ∧
      InRange (some 1701302400) none 1701390600 ∧ isFuture 1701385200 1701390600 = false ∧
        ShardId.fromTimestamp 1701385200 1701390600 = ⟨2023, 12⟩ ∧
        shardsInRange 1701385200 (some 1701302400) none ⟨2020, 11⟩ = some [⟨2023, 11⟩] := by
  refine ⟨⟨⟨nofun, ?_⟩, by decide, by decide, by decide⟩, ⟨?_, nofun⟩, by decide, by decide,
    by decide⟩
  · rintro u ⟨⟩
    norm_num
  · rintro ts ⟨⟩
    norm_num

end NostrSearch.Server
