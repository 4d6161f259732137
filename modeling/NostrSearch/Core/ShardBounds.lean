import NostrSearch.Core.ShardRange

/-!
# The bounds of a shard

A shard goes from its first second to that of the next. A timestamp is read as a signed number, so
that the largest ones are seconds before 1970; the first seconds of their months are large numbers
too, except for the one that begins at 1970, which is zero. The calendar ends with the year 262142,
and its last month has no end (`ShardId.bounds_iff`).
-/

namespace NostrSearch.Core

namespace ShardId

/-- `start_ts`. There is no date for a month or a year outside the calendar, and `unwrap` panics. -/
def startTs (id : ShardId) : Option ℕ :=
  if 1 ≤ id.month ∧ id.month ≤ 12 ∧ -262143 ≤ id.year ∧ id.year ≤ 262142 then some id.firstSecond
  else none

/-- `end_ts`: the first second of the next shard. -/
def endTs (id : ShardId) : Option ℕ :=
  let (y, m) := if id.month = 12 then (id.year + 1, 1) else (id.year, id.month + 1)
  startTs { year := y, month := m }

/-! ## Days and months -/

/-- A day is not before the first day of its month. -/
theorem firstDay_ofDays_le (d : ℤ) : (ofDays d).firstDay ≤ d := by
  have hdays := days_eq d
  have hyoe := (yearOfEra_spec (dayOfEra_lt d)).1
  have hlt := marchMonth_lt (dayOfYear_le d)
  have hdoy : (153 * marchMonth (dayOfYear d) + 2) / 5 ≤ dayOfYear d := by
    unfold marchMonth
    omega
  -- the year and the month counted from March
  have hfirst : (ofDays d).firstDay = (d + 719468) / 146097 * 146097 +
      (yearStart (yearOfEra (dayOfEra d)) + (153 * marchMonth (dayOfYear d) + 2) / 5 : ℕ) -
        719468 := by
    obtain ⟨m, hm⟩ : ∃ m, marchMonth (dayOfYear d) = m := ⟨_, rfl⟩
    obtain ⟨y, hy⟩ : ∃ y, marchYear d = y := ⟨_, rfl⟩
    have hera : y / 400 = (d + 719468) / 146097 := by
      unfold marchYear at hy
      omega
    have hyear : (y % 400).toNat = yearOfEra (dayOfEra d) := by
      unfold marchYear at hy
      omega
    rw [hm] at hlt ⊢
    rw [ofDays_eq, hm, hy]
    by_cases hearly : m < 10
    · rw [if_pos hearly, firstDay, if_neg (by simp), hera, hyear, show m + 3 + 9 = m + 12 by omega,
        Nat.add_mod_right, Nat.mod_eq_of_lt hlt]
      unfold yearStart
      push_cast
      omega
    · rw [if_neg hearly, firstDay]
      dsimp only
      rw [if_pos (by omega), show y + 1 - 1 = y by omega, hera, hyear,
        show m - 9 + 9 = m by omega, Nat.mod_eq_of_lt hlt]
      unfold yearStart
      push_cast
      omega
  omega

/-- A month has begun on a day if and only if its first day has come. -/
theorem index_le_ofDays_iff {id : ShardId} (h : id.Valid) {d : ℤ} :
    id.index ≤ (ofDays d).index ↔ id.firstDay ≤ d := by
  have hself := ofDays_firstDay h.1 h.2
  constructor
  · intro hle
    by_contra hlt
    have hmono := index_mono (not_le.mp hlt).le
    rw [hself] at hmono
    have heq : ofDays d = id := index_injective (ofDays_month d) h (le_antisymm hmono hle)
    have hfirst := firstDay_ofDays_le d
    rw [heq] at hfirst
    exact hlt hfirst
  · intro hle
    have hmono := index_mono hle
    rwa [hself] at hmono

theorem valid_of_inCalendar {id : ShardId} (h : id.InCalendar) : id.Valid := ⟨h.1, h.2.1⟩

theorem startTs_of_inCalendar {id : ShardId} (h : id.InCalendar) :
    id.startTs = some id.firstSecond := if_pos h

theorem isSome_startTs_iff {id : ShardId} : id.startTs.isSome ↔ id.InCalendar := by
  unfold startTs
  split
  case isTrue h => exact iff_of_true rfl h
  case isFalse h => exact iff_of_false nofun h

theorem endTs_eq (id : ShardId) : id.endTs = id.next.startTs := by
  unfold endTs next
  by_cases h : id.month = 12
  · rw [if_pos h, if_pos h]
  · rw [if_neg h, if_neg h]

/-- A second is in its month. -/
theorem secs_bounds {secs : ℤ} {id : ShardId} (h : ofUtc secs = id) :
    id.firstDay * 86400 ≤ secs ∧ secs < id.next.firstDay * 86400 := by
  subst h
  have hfirst := firstDay_ofDays_le (secs / 86400)
  have hnext : ¬ (ofUtc secs).next.firstDay ≤ secs / 86400 := by
    rw [← index_le_ofDays_iff (next_valid (ofUtc_valid secs)), index_next]
    exact not_le.mpr (lt_add_one _)
  unfold ofUtc at hnext ⊢
  omega

/-- A month with a number and a first second has come by a second. -/
theorem index_le_ofUtc_iff (id : ShardId) (h : id.Valid) {n first : ℤ} (hindex : id.index = n)
    (hfirst : id.firstDay * 86400 = first) (secs : ℤ) :
    n ≤ (ofUtc secs).index ↔ first ≤ secs := by
  rw [← hindex, ← hfirst, ofUtc, index_le_ofDays_iff h]
  omega

/-- The epoch. -/
theorem epoch_le_iff (secs : ℤ) : 23641 ≤ (ofUtc secs).index ↔ 0 ≤ secs :=
  index_le_ofUtc_iff ⟨1970, 1⟩ (by decide) (by decide) (by decide) secs

/-- The month before it. -/
theorem beforeEpoch_le_iff (secs : ℤ) : 23640 ≤ (ofUtc secs).index ↔ -2678400 ≤ secs :=
  index_le_ofUtc_iff ⟨1969, 12⟩ (by decide) (by decide) (by decide) secs

/-- The last month of the calendar. -/
theorem lastMonth_le_iff (secs : ℤ) : 3145716 ≤ (ofUtc secs).index ↔ 8210264198400 ≤ secs :=
  index_le_ofUtc_iff ⟨262142, 12⟩ (by decide) (by decide) (by decide) secs

/-- The year zero. -/
theorem yearZero_le_iff (secs : ℤ) : 1 ≤ (ofUtc secs).index ↔ -62167219200 ≤ secs :=
  index_le_ofUtc_iff ⟨0, 1⟩ (by decide) (by decide) (by decide) secs

theorem epoch_le_firstDay_iff {id : ShardId} (h : id.Valid) :
    23641 ≤ id.index ↔ 0 ≤ id.firstDay := by
  have hepoch := index_le_ofDays_iff (show (ShardId.mk 1970 1).Valid by decide) (d := id.firstDay)
  rw [ofDays_firstDay h.1 h.2] at hepoch
  exact hepoch

theorem asI64_bounds {ts : ℕ} (h : ts < 2 ^ 64) : -2 ^ 63 ≤ asI64 ts ∧ asI64 ts < 2 ^ 63 := by
  unfold asI64
  split <;> omega

/-- What a timestamp is as a signed number, and what a signed number is as a timestamp. -/
theorem toNat_asI64 {ts : ℕ} (h : ts < 2 ^ 64) : ((asI64 ts) % 2 ^ 64).toNat = ts := by
  unfold asI64
  split <;> omega

theorem ofUtc_of_some {secs : ℤ} {id : ShardId} (h : ofTimestampOpt secs = some id) :
    ofUtc secs = id := by
  unfold ofTimestampOpt at h
  dsimp only at h
  split at h
  case isTrue => exact Option.some.inj h
  case isFalse => cases h

/-! ## Bounds -/

/-- Months of the calendar, in terms of their numbers. -/
theorem next_inCalendar_iff {id : ShardId} (h : id.InCalendar) :
    id.next.InCalendar ↔ id.index < 3145716 := by
  obtain ⟨hpos, hle, hfrom, hto⟩ := h
  unfold InCalendar next index
  split
  · dsimp only
    omega
  · dsimp only
    omega

theorem firstDay_next_neg_iff {id : ShardId} (h : id.Valid) :
    id.next.firstDay < 0 ↔ id.index < 23640 := by
  have hepoch := epoch_le_firstDay_iff (next_valid h)
  rw [index_next] at hepoch
  omega

/-- Signed numbers as unsigned ones: negative numbers come after all others. -/
theorem unsigned_le_iff {x y : ℤ} (hx : -2 ^ 63 ≤ x ∧ x < 2 ^ 63) (hy : -2 ^ 63 ≤ y ∧ y < 2 ^ 63)
    (h : x ≤ y) : (x % 2 ^ 64).toNat ≤ (y % 2 ^ 64).toNat ↔ (y < 0 ∨ 0 ≤ x) := by
  omega

theorem unsigned_lt_iff {x y : ℤ} (hx : -2 ^ 63 ≤ x ∧ x < 2 ^ 63) (hy : -2 ^ 63 ≤ y ∧ y < 2 ^ 63)
    (h : x < y) : (x % 2 ^ 64).toNat < (y % 2 ^ 64).toNat ↔ (x < 0 → y < 0) := by
  omega

/-- The timestamp is between the first second of its shard and that of the next. -/
def Bounds (id : ShardId) (ts : ℕ) : Prop :=
  ∃ a b, id.startTs = some a ∧ id.endTs = some b ∧ id.next.startTs = some b ∧ a ≤ ts ∧ ts < b

theorem firstSecond_range {id : ShardId} (h : id.InCalendar) :
    -2 ^ 63 ≤ id.firstDay * 86400 ∧ id.firstDay * 86400 < 2 ^ 63 := by
  have hbounds := firstDay_bounds h
  omega

/-- A timestamp is not before the first second of its shard. -/
theorem firstSecond_le {ts : ℕ} {id : ShardId} (hts : ts < 2 ^ 64)
    (h : ofTimestampOpt (asI64 ts) = some id) : id.firstSecond ≤ ts := by
  have hcal := inCalendar_of_timestamp h
  have hutc := ofUtc_of_some h
  have hepoch := epoch_le_iff (asI64 ts)
  have hstart := epoch_le_firstDay_iff (valid_of_inCalendar hcal)
  rw [hutc] at hepoch
  rw [← toNat_asI64 hts, firstSecond,
    unsigned_le_iff (firstSecond_range hcal) (asI64_bounds hts) (secs_bounds hutc).1]
  omega

/-- A timestamp is before the first second of the next shard, unless that is at the epoch. -/
theorem lt_firstSecond_next {ts : ℕ} {id : ShardId} (hts : ts < 2 ^ 64)
    (h : ofTimestampOpt (asI64 ts) = some id) (hnext : id.next.InCalendar) :
    ts < id.next.firstSecond ↔ ¬ (-2678400 ≤ asI64 ts ∧ asI64 ts < 0) := by
  have hutc := ofUtc_of_some h
  have hbefore := beforeEpoch_le_iff (asI64 ts)
  have hneg := firstDay_next_neg_iff (valid_of_inCalendar (inCalendar_of_timestamp h))
  have hlt := unsigned_lt_iff (asI64_bounds hts) (firstSecond_range hnext) (secs_bounds hutc).2
  rw [hutc] at hbefore
  rw [toNat_asI64 hts] at hlt
  have hend : ts < id.next.firstSecond ↔ (asI64 ts < 0 → id.next.firstDay * 86400 < 0) := hlt
  rw [hend]
  clear hlt hend
  omega

/-- A timestamp is in bounds unless it is in the last month of the calendar, which has no end, or in
the last month before the epoch, whose end is zero. -/
theorem bounds_iff {ts : ℕ} {id : ShardId} (hts : ts < 2 ^ 64)
    (h : ofTimestampOpt (asI64 ts) = some id) :
    id.Bounds ts ↔ asI64 ts < 8210264198400 ∧ ¬ (-2678400 ≤ asI64 ts ∧ asI64 ts < 0) := by
  have hcal := inCalendar_of_timestamp h
  have hlast := lastMonth_le_iff (asI64 ts)
  rw [ofUtc_of_some h] at hlast
  have hnext := next_inCalendar_iff hcal
  unfold Bounds
  rw [startTs_of_inCalendar hcal, endTs_eq]
  by_cases hin : id.next.InCalendar
  · have hend := lt_firstSecond_next hts h hin
    have hlt := hnext.mp hin
    rw [startTs_of_inCalendar hin]
    constructor
    · rintro ⟨a, b, -, hb, -, -, hbound⟩
      cases hb
      exact ⟨by omega, hend.mp hbound⟩
    · rintro ⟨-, hepoch⟩
      exact ⟨_, _, rfl, rfl, rfl, firstSecond_le hts h, hend.mpr hepoch⟩
  · have hge : ¬ id.index < 3145716 := fun hlt => hin (hnext.mpr hlt)
    refine iff_of_false ?_ fun hbound => hge (by omega)
    rintro ⟨a, b, -, hb, -⟩
    exact hin (isSome_startTs_iff.mp (Option.isSome_of_eq_some hb))

/-! ## Monotonicity -/

/-- Timestamps that are negative as signed numbers come after all others, and are in months before
them. -/
theorem fromTimestamp_le_iff {ts ts' : ℕ} {id id' : ShardId} (hts : ts' < 2 ^ 64) (hle : ts ≤ ts')
    (h : ofTimestampOpt (asI64 ts) = some id) (h' : ofTimestampOpt (asI64 ts') = some id') :
    id ≤ id' ↔ ¬ (ts < 2 ^ 63 ∧ 2 ^ 63 ≤ ts') := by
  have hutc := ofUtc_of_some h
  have hutc' := ofUtc_of_some h'
  by_cases hcross : ts < 2 ^ 63 ∧ 2 ^ 63 ≤ ts'
  · refine iff_of_false (fun hmonth => ?_) (not_not.mpr hcross)
    have hepoch := epoch_le_iff (asI64 ts)
    have hepoch' := epoch_le_iff (asI64 ts')
    rw [hutc] at hepoch
    rw [hutc'] at hepoch'
    rw [le_iff_index (valid_of_inCalendar (inCalendar_of_timestamp h))
      (valid_of_inCalendar (inCalendar_of_timestamp h'))] at hmonth
    unfold asI64 at hepoch hepoch'
    rw [if_pos hcross.1] at hepoch
    rw [if_neg (by omega)] at hepoch'
    omega
  · refine iff_of_true ?_ hcross
    rw [← hutc, ← hutc']
    refine ofUtc_mono ?_
    unfold asI64
    split <;> split <;> omega

end ShardId

end NostrSearch.Core
