import NostrSearch.Core.Shard

/-!
# The civil calendar

Months and dates as functions of the day number. Years start in March here and come in eras of
400, as in `ShardId.ofDays`; a day is a year and a day of it, and the month is a function of the
day of the year. So the month of a day never goes down as days pass, and a date names one day.
-/

namespace NostrSearch.Core

/-! ## Eras -/

/-- The year of an era that a day of it falls in. -/
def yearOfEra (doe : ℕ) : ℕ := (doe - doe / 1460 + doe / 36524 - doe / 146096) / 365

/-- The first day of a year, counted from the start of its era. -/
def yearStart (y : ℕ) : ℕ := 365 * y + y / 4 - y / 100

/-- Centuries of an era, the last of them a day longer. -/
private theorem exists_century {doe : ℕ} (h : doe < 146097) :
    ∃ c doc, c ≤ 3 ∧ doe = 36524 * c + doc ∧ doc ≤ 36524 ∧ (doc = 36524 → c = 3) := by
  rcases Nat.lt_or_ge doe 146096 with h' | h'
  · exact ⟨doe / 36524, doe % 36524, by omega, by omega, by omega, by omega⟩
  · exact ⟨3, 36524, by omega, by omega, by omega, by omega⟩

/-- Groups of four years of a century, and their years, the last of them a day longer. -/
private theorem exists_year {doc : ℕ} (h : doc ≤ 36524) :
    ∃ q r d, q ≤ 24 ∧ r ≤ 3 ∧ doc = 1461 * q + 365 * r + d ∧ d ≤ 365 ∧ (d = 365 → r = 3) := by
  have hq : doc / 1461 ≤ 24 := by omega
  have hdoc : doc = 1461 * (doc / 1461) + doc % 1461 := by omega
  have hlt : doc % 1461 < 1461 := by omega
  generalize doc / 1461 = q at *
  generalize doc % 1461 = n at *
  rcases Nat.lt_or_ge n 1460 with h' | h'
  · exact ⟨q, n / 365, n % 365, hq, by omega, by omega, by omega, by omega⟩
  · exact ⟨q, 3, 365, hq, by omega, by omega, by omega, by omega⟩

private theorem yearStart_eq {c q r : ℕ} (hq : q ≤ 24) (hr : r ≤ 3) :
    yearStart (100 * c + 4 * q + r) = 36524 * c + 1461 * q + 365 * r := by
  unfold yearStart
  omega

private theorem yearOfEra_eq {c q r d : ℕ} (hc : c ≤ 3) (hq : q ≤ 24) (hr : r ≤ 3) (hd : d ≤ 365)
    (hlong : d = 365 → r = 3) (hdoc : 1461 * q + 365 * r + d ≤ 36524)
    (hlast : 1461 * q + 365 * r + d = 36524 → c = 3) :
    yearOfEra (36524 * c + 1461 * q + 365 * r + d) = 100 * c + 4 * q + r := by
  -- days of 1460 each: one fewer than the leap days so far would have it
  have h4 : (36524 * c + 1461 * q + 365 * r + d) / 1460 =
      25 * c + q + (if 1460 ≤ 24 * c + q + 365 * r + d then 1 else 0) := by
    rw [Nat.div_eq_iff (by norm_num)]
    split <;> omega
  -- the two corrections of a century cancel on the last day of the era
  have h100 : (36524 * c + 1461 * q + 365 * r + d) / 36524 -
      (36524 * c + 1461 * q + 365 * r + d) / 146096 = c := by
    rcases Nat.lt_or_ge (1461 * q + 365 * r + d) 36524 with h | h
    · have hcent : (36524 * c + 1461 * q + 365 * r + d) / 36524 = c := by
        rw [Nat.div_eq_iff (by norm_num)]
        omega
      have hera : (36524 * c + 1461 * q + 365 * r + d) / 146096 = 0 := by
        rw [Nat.div_eq_iff (by norm_num)]
        omega
      omega
    · have hval : 36524 * c + 1461 * q + 365 * r + d = 146096 := by omega
      rw [hval]
      omega
  unfold yearOfEra
  rw [h4, Nat.add_sub_assoc (by omega), h100, Nat.div_eq_iff (by norm_num)]
  split <;> omega

/-- A day of an era lies in its year. -/
theorem yearOfEra_spec {doe : ℕ} (h : doe < 146097) :
    yearOfEra doe < 400 ∧ yearStart (yearOfEra doe) ≤ doe ∧
      doe ≤ yearStart (yearOfEra doe) + 365 ∧
      (yearOfEra doe < 399 → doe < yearStart (yearOfEra doe + 1)) := by
  obtain ⟨c, doc, hc, rfl, hdoc, hlast⟩ := exists_century h
  obtain ⟨q, r, d, hq, hr, rfl, hd, hlong⟩ := exists_year hdoc
  have hyear := yearOfEra_eq hc hq hr hd hlong hdoc hlast
  have hassoc : 36524 * c + (1461 * q + 365 * r + d) = 36524 * c + 1461 * q + 365 * r + d := by
    omega
  rw [hassoc, hyear, yearStart_eq hq hr]
  refine ⟨by omega, by omega, by omega, fun h399 => ?_⟩
  -- the next year is in the same group of four, in the next group, or in the next century
  rcases Nat.lt_or_ge r 3 with hr' | hr'
  · have hnext := yearStart_eq (c := c) (r := r + 1) hq hr'
    rw [← Nat.add_assoc] at hnext
    omega
  · obtain rfl : r = 3 := by omega
    rcases Nat.lt_or_ge q 24 with hq' | hq'
    · have hnext := yearStart_eq (c := c) (Nat.succ_le_of_lt hq') (Nat.zero_le 3)
      have hgroup : 100 * c + 4 * (q + 1) + 0 = 100 * c + 4 * q + 3 + 1 := by omega
      rw [hgroup] at hnext
      omega
    · obtain rfl : q = 24 := by omega
      have hnext := yearStart_eq (c := c + 1) (Nat.zero_le 24) (Nat.zero_le 3)
      have hgroup : 100 * (c + 1) + 4 * 0 + 0 = 100 * c + 4 * 24 + 3 + 1 := by omega
      rw [hgroup] at hnext
      omega

theorem yearStart_mono : Monotone yearStart := by
  apply monotone_nat_of_le_succ
  intro y
  unfold yearStart
  omega

/-! ## Years and days -/

/-- The day of its era. -/
def dayOfEra (days : ℤ) : ℕ := ((days + 719468) % 146097).toNat

/-- The year a day falls in, counted from March. -/
def marchYear (days : ℤ) : ℤ := yearOfEra (dayOfEra days) + (days + 719468) / 146097 * 400

/-- The day of that year. -/
def dayOfYear (days : ℤ) : ℕ := dayOfEra days - yearStart (yearOfEra (dayOfEra days))

/-- The month of a day of the year, counted from March. -/
def marchMonth (doy : ℕ) : ℕ := (5 * doy + 2) / 153

theorem dayOfEra_lt (days : ℤ) : dayOfEra days < 146097 := by
  unfold dayOfEra
  omega

theorem dayOfYear_le (days : ℤ) : dayOfYear days ≤ 365 := by
  have h := yearOfEra_spec (dayOfEra_lt days)
  unfold dayOfYear
  omega

theorem marchMonth_lt {doy : ℕ} (h : doy ≤ 365) : marchMonth doy < 12 := by
  unfold marchMonth
  omega

/-- A day is its era, year and day of the year. -/
theorem days_eq (days : ℤ) :
    days = (days + 719468) / 146097 * 146097 + yearStart (yearOfEra (dayOfEra days)) +
      dayOfYear days - 719468 := by
  have h := (yearOfEra_spec (dayOfEra_lt days)).2.1
  have hdoe : (dayOfEra days : ℤ) = (days + 719468) % 146097 := by
    unfold dayOfEra
    omega
  have hdoy : (dayOfYear days : ℤ) = dayOfEra days - yearStart (yearOfEra (dayOfEra days)) := by
    unfold dayOfYear
    omega
  omega

/-- Later days are in later years, or later in the same year. -/
theorem marchYear_mono {d d' : ℤ} (h : d ≤ d') :
    marchYear d < marchYear d' ∨ marchYear d = marchYear d' ∧ dayOfYear d ≤ dayOfYear d' := by
  have hy := yearOfEra_spec (dayOfEra_lt d)
  have hy' := yearOfEra_spec (dayOfEra_lt d')
  have hera : (d + 719468) / 146097 ≤ (d' + 719468) / 146097 := by omega
  unfold marchYear
  rcases Int.lt_or_eq_of_le hera with hlt | heq
  · left
    omega
  · have hdoe : dayOfEra d ≤ dayOfEra d' := by
      unfold dayOfEra
      omega
    rcases Nat.lt_trichotomy (yearOfEra (dayOfEra d)) (yearOfEra (dayOfEra d')) with hc | hc | hc
    · left
      omega
    · right
      unfold dayOfYear
      rw [hc, heq]
      exact ⟨rfl, by omega⟩
    · -- a day of an earlier year is over before the later year starts
      have hmono : yearStart (yearOfEra (dayOfEra d') + 1) ≤ yearStart (yearOfEra (dayOfEra d)) :=
        yearStart_mono (Nat.succ_le_of_lt hc)
      omega

/-! ## Months -/

/-- The months of all years in one sequence. -/
def ShardId.index (id : ShardId) : ℤ := 12 * id.year + id.month

theorem ShardId.ofDays_eq (days : ℤ) :
    ShardId.ofDays days =
      if marchMonth (dayOfYear days) < 10 then
        { year := marchYear days, month := marchMonth (dayOfYear days) + 3 }
      else { year := marchYear days + 1, month := marchMonth (dayOfYear days) - 9 } := by
  have hlt := marchMonth_lt (dayOfYear_le days)
  show ShardId.mk (marchYear days +
      if (if marchMonth (dayOfYear days) < 10 then marchMonth (dayOfYear days) + 3
        else marchMonth (dayOfYear days) - 9) ≤ 2 then 1 else 0) _ = _
  by_cases h : marchMonth (dayOfYear days) < 10
  · rw [if_pos h, if_pos h, if_neg (by omega), add_zero]
    exact congrArg _ (if_pos h)
  · rw [if_neg h, if_neg h, if_pos (by omega)]
    exact congrArg _ (if_neg h)

theorem ShardId.index_ofDays (days : ℤ) :
    (ShardId.ofDays days).index = 12 * marchYear days + marchMonth (dayOfYear days) + 3 := by
  have hlt := marchMonth_lt (dayOfYear_le days)
  rw [ShardId.ofDays_eq]
  unfold ShardId.index
  split
  · push_cast
    ring
  · dsimp only
    omega

theorem ShardId.ofDays_month (days : ℤ) :
    1 ≤ (ShardId.ofDays days).month ∧ (ShardId.ofDays days).month ≤ 12 := by
  have hlt := marchMonth_lt (dayOfYear_le days)
  rw [ShardId.ofDays_eq]
  split
  · dsimp only
    omega
  · dsimp only
    omega

/-- **The calendar is monotone.** -/
theorem ShardId.index_mono {d d' : ℤ} (h : d ≤ d') :
    (ShardId.ofDays d).index ≤ (ShardId.ofDays d').index := by
  have hlt := marchMonth_lt (dayOfYear_le d)
  rw [ShardId.index_ofDays, ShardId.index_ofDays]
  rcases marchYear_mono h with hyear | ⟨hyear, hdoy⟩
  · omega
  · have hmonth : marchMonth (dayOfYear d) ≤ marchMonth (dayOfYear d') := by
      unfold marchMonth
      omega
    omega

/-! ## The first day of a month -/

/-- A month of a year the calendar covers. -/
def ShardId.InCalendar (id : ShardId) : Prop :=
  1 ≤ id.month ∧ id.month ≤ 12 ∧ -262143 ≤ id.year ∧ id.year ≤ 262142

theorem yearOfEra_eq_of_bounds {y doe : ℕ} (hdoe : doe < 146097) (hy : y < 400)
    (hstart : yearStart y ≤ doe) (hend : y < 399 → doe < yearStart (y + 1)) :
    yearOfEra doe = y := by
  obtain ⟨hlt, hle, -, hnext⟩ := yearOfEra_spec hdoe
  rcases Nat.lt_trichotomy (yearOfEra doe) y with h | h | h
  · -- the year before would be over
    have hmono := yearStart_mono (Nat.succ_le_of_lt h)
    have hover := hnext (by omega)
    dsimp only [Nat.succ_eq_add_one] at hmono
    omega
  · exact h
  · have hmono := yearStart_mono (Nat.succ_le_of_lt h)
    have hover := hend (by omega)
    dsimp only [Nat.succ_eq_add_one] at hmono
    omega

/-- The first day of a month is in it. -/
theorem ShardId.ofDays_firstDay {id : ShardId} (hpos : 1 ≤ id.month) (hle : id.month ≤ 12) :
    ShardId.ofDays id.firstDay = id := by
  obtain ⟨year, month⟩ := id
  dsimp only at hpos hle
  -- the month and the year counted from March
  obtain ⟨m, hm, hlt⟩ : ∃ m, (month + 9) % 12 = m ∧ m < 12 := ⟨_, rfl, by omega⟩
  obtain ⟨y, hy⟩ : ∃ y, (if month ≤ 2 then year - 1 else year) = y := ⟨_, rfl⟩
  obtain ⟨yoe, hyoe, hyoelt⟩ : ∃ yoe, (y % 400).toNat = yoe ∧ yoe < 400 := ⟨_, rfl, by omega⟩
  have hdoe : yearStart yoe + (153 * m + 2) / 5 < 146097 := by
    unfold yearStart
    omega
  have hfirst : ShardId.firstDay ⟨year, month⟩ =
      y / 400 * 146097 + (yearStart yoe + (153 * m + 2) / 5 : ℕ) - 719468 := by
    unfold ShardId.firstDay yearStart
    dsimp only
    rw [hy, hyoe, hm]
    push_cast
    omega
  have hera : (ShardId.firstDay ⟨year, month⟩ + 719468) / 146097 = y / 400 := by omega
  have hday : dayOfEra (ShardId.firstDay ⟨year, month⟩) = yearStart yoe + (153 * m + 2) / 5 := by
    unfold dayOfEra
    omega
  have hyear : yearOfEra (dayOfEra (ShardId.firstDay ⟨year, month⟩)) = yoe := by
    rw [hday]
    apply yearOfEra_eq_of_bounds hdoe hyoelt
    · omega
    · unfold yearStart
      omega
  have hdoy : dayOfYear (ShardId.firstDay ⟨year, month⟩) = (153 * m + 2) / 5 := by
    unfold dayOfYear
    rw [hyear, hday]
    omega
  have hmonth : marchMonth ((153 * m + 2) / 5) = m := by
    unfold marchMonth
    omega
  have hmarch : marchYear (ShardId.firstDay ⟨year, month⟩) = y := by
    unfold marchYear
    rw [hyear, hera]
    omega
  rw [ShardId.ofDays_eq, hdoy, hmonth, hmarch]
  rcases Nat.lt_or_ge 2 month with hlate | hearly
  · have hm' : month = m + 3 := by
      have hmod : (month - 3 + 12) % 12 = month - 3 := by
        rw [Nat.add_mod_right, Nat.mod_eq_of_lt (by omega)]
      have hsum : month + 9 = month - 3 + 12 := by omega
      rw [hsum, hmod] at hm
      omega
    rw [if_neg (by omega)] at hy
    rw [if_pos (by omega), ShardId.mk.injEq]
    exact ⟨hy.symm, hm'.symm⟩
  · -- January and February belong to the year that started in the March before
    have hm' : m = month + 9 := by rw [← hm, Nat.mod_eq_of_lt (by omega)]
    rw [if_pos (by omega)] at hy
    rw [if_neg (by omega), ShardId.mk.injEq]
    omega

/-- The first second of a month, as a `u64`. -/
def ShardId.firstSecond (id : ShardId) : ℕ := ((id.firstDay * 86400) % 2 ^ 64).toNat

theorem ShardId.firstDay_bounds {id : ShardId} (h : id.InCalendar) :
    -100000000 < id.firstDay ∧ id.firstDay < 100000000 := by
  obtain ⟨year, month⟩ := id
  obtain ⟨-, -, hfrom, hto⟩ := h
  dsimp only at hfrom hto
  obtain ⟨y, hy, hy'⟩ : ∃ y, (if month ≤ 2 then year - 1 else year) = y ∧
      (-262144 ≤ y ∧ y ≤ 262142) := by
    refine ⟨_, rfl, ?_⟩
    split <;> omega
  have hfirst : ShardId.firstDay ⟨year, month⟩ = y / 400 * 146097 +
      ((y % 400).toNat * 365 + (y % 400).toNat / 4 - (y % 400).toNat / 100 +
        (153 * ((month + 9) % 12) + 2) / 5 : ℕ) - 719468 := by
    unfold ShardId.firstDay
    dsimp only
    rw [hy]
  have hn : (y % 400).toNat < 400 := by omega
  rw [hfirst]
  generalize (y % 400).toNat = n at hn
  omega

/-- A month of the calendar is given by its first second. -/
theorem ShardId.firstSecond_inj {id id' : ShardId} (hid : id.InCalendar) (hid' : id'.InCalendar)
    (h : id.firstSecond = id'.firstSecond) : id = id' := by
  have hb := firstDay_bounds hid
  have hb' := firstDay_bounds hid'
  have hpos : ∀ x : ℤ, 0 ≤ x % 2 ^ 64 := fun x => Int.emod_nonneg x (by norm_num)
  have hmod : (id'.firstDay * 86400) % 2 ^ 64 = (id.firstDay * 86400) % 2 ^ 64 := by
    unfold ShardId.firstSecond at h
    rw [← Int.toNat_of_nonneg (hpos (id.firstDay * 86400)),
      ← Int.toNat_of_nonneg (hpos (id'.firstDay * 86400)), h]
  -- the calendar is shorter than the range of a `u64`
  have hlt : |id.firstDay * 86400 - id'.firstDay * 86400| < 2 ^ 64 := by
    rw [abs_lt]
    constructor
    · linarith
    · linarith
  have hzero := Int.eq_zero_of_abs_lt_dvd (Int.ModEq.dvd hmod) hlt
  have hfirst : id.firstDay = id'.firstDay :=
    mul_right_cancel₀ (by norm_num) (sub_eq_zero.mp hzero)
  rw [← ShardId.ofDays_firstDay hid.1 hid.2.1, hfirst, ShardId.ofDays_firstDay hid'.1 hid'.2.1]

/-- A month that a timestamp falls in is one of the calendar. -/
theorem ShardId.inCalendar_of_timestamp {secs : ℤ} {id : ShardId}
    (h : ShardId.ofTimestampOpt secs = some id) : id.InCalendar := by
  unfold ShardId.ofTimestampOpt at h
  dsimp only at h
  split at h
  case isTrue hyear =>
    cases h
    obtain ⟨hpos, hle⟩ := ShardId.ofDays_month (secs / 86400)
    exact ⟨hpos, hle, hyear⟩
  case isFalse => cases h

end NostrSearch.Core
