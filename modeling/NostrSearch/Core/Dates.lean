import NostrSearch.Core.Calendar
import NostrSearch.Lib.Decimal

/-!
# Dates as text

`{:04}-{:02}-{:02}` of a day: the name it is recorded under. Two days never have the same name.
-/

namespace NostrSearch.Core

open NostrSearch.Lib

/-- `{:0width}` of a number: zeros in front, up to the width. -/
def padZero (width n : ℕ) : List Char :=
  List.replicate (width - (Nat.toDigits 10 n).length) '0' ++ Nat.toDigits 10 n

theorem numeralValue_padZero (width n : ℕ) : numeralValue (padZero width n) = n := by
  rw [padZero, numeralValue, Nat.ofDigitChars_append, Nat.ofDigitChars_replicate_zero, Nat.mul_zero,
    Nat.ofDigitChars_ten_toDigits]

theorem padZero_injective (width : ℕ) : Function.Injective (padZero width) := by
  intro n m h
  rw [← numeralValue_padZero width n, h, numeralValue_padZero]

theorem isDigit_of_mem_padZero {width n : ℕ} {c : Char} (h : c ∈ padZero width n) :
    c.isDigit = true := by
  rcases List.mem_append.mp h with h | h
  · rw [(List.mem_replicate.mp h).2]
    decide
  · exact Nat.isDigit_of_mem_toDigits (by decide) (by decide) h

/-- A numeral that fills a width, and has no zero in front where it is longer. -/
structure PaddedTo (width : ℕ) (ds : List Char) : Prop where
  numeral : IsNumeral ds
  fills : width ≤ ds.length
  no_zero : width < ds.length → ds.head? ≠ some '0'

theorem padZero_succ {width n : ℕ} (h : (Nat.toDigits 10 n).length ≤ width) :
    padZero (width + 1) n = '0' :: padZero width n := by
  rw [padZero, padZero, Nat.succ_sub h, List.replicate_succ, List.cons_append]

theorem paddedTo_padZero {width : ℕ} (hwidth : 0 < width) (n : ℕ) :
    PaddedTo width (padZero width n) := by
  refine ⟨⟨?_, fun c hc => isDigit_of_mem_padZero hc⟩, ?_, ?_⟩
  · exact fun hnil => Nat.toDigits_ne_nil (List.append_eq_nil_iff.mp hnil).2
  · rw [padZero, List.length_append, List.length_replicate]
    omega
  · intro hlong
    rw [padZero, List.length_append, List.length_replicate] at hlong
    have hfull : width - (Nat.toDigits 10 n).length = 0 := by omega
    rw [padZero, hfull, List.replicate_zero, List.nil_append]
    refine head?_toDigits (Nat.pos_of_ne_zero ?_)
    rintro rfl
    rw [Nat.toDigits_zero, List.length_singleton] at hlong hfull
    omega

theorem padZero_numeralValue {width : ℕ} {ds : List Char} (h : PaddedTo width ds) :
    padZero width (numeralValue ds) = ds := by
  induction ds generalizing width with
  | nil => exact absurd rfl h.numeral.1
  | cons c ds ih =>
    by_cases hzero : c = '0' ∧ ds ≠ []
    · obtain ⟨rfl, hne⟩ := hzero
      -- a zero in front stands there for the width
      have hwidth : width = ds.length + 1 :=
        le_antisymm h.fills (not_lt.mp fun hlt => h.no_zero hlt rfl)
      subst hwidth
      have hrest : padZero ds.length (numeralValue ds) = ds := ih
        ⟨⟨hne, fun x hx => h.numeral.2 x (List.mem_cons_of_mem _ hx)⟩, le_rfl,
          fun hlt => absurd hlt (lt_irrefl _)⟩
      have hvalue : numeralValue ('0' :: ds) = numeralValue ds := by
        rw [numeralValue, Nat.ofDigitChars_cons]
        rfl
      have hlen := congrArg List.length hrest
      rw [padZero, List.length_append] at hlen
      rw [hvalue, padZero_succ (by omega), hrest]
    · have hdigits : Nat.toDigits 10 (numeralValue (c :: ds)) = c :: ds := by
        refine toDigits_numeralValue h.numeral fun hlong hhead => hzero ⟨Option.some.inj hhead, ?_⟩
        rintro rfl
        exact absurd hlong (lt_irrefl _)
      rw [padZero, hdigits, Nat.sub_eq_zero_of_le h.fills]
      rfl

/-- **Padded spellings.** -/
theorem padZero_iff {width n : ℕ} (hwidth : 0 < width) {ds : List Char} :
    ds = padZero width n ↔ PaddedTo width ds ∧ numeralValue ds = n := by
  constructor
  · rintro rfl
    exact ⟨paddedTo_padZero hwidth n, numeralValue_padZero width n⟩
  · rintro ⟨h, rfl⟩
    exact (padZero_numeralValue h).symm

/-- The day of the month, counted from 1. -/
def dayOfMonth (days : ℤ) : ℕ :=
  dayOfYear days - (153 * marchMonth (dayOfYear days) + 2) / 5 + 1

/-- `format!("{:04}-{:02}-{:02}", dt.year(), dt.month(), dt.day())`. -/
def dateText (days : ℤ) : List Char :=
  padZero 4 (ShardId.ofDays days).year.toNat ++ '-' :: (padZero 2 (ShardId.ofDays days).month ++
    '-' :: padZero 2 (dayOfMonth days))

/-- What stands before the first `c` and after it. -/
theorem split_at_first {c : Char} {xs ys us vs : List Char} (hx : c ∉ xs) (hu : c ∉ us)
    (h : xs ++ c :: ys = us ++ c :: vs) : xs = us ∧ ys = vs := by
  induction xs generalizing us with
  | nil =>
    cases us with
    | nil => exact ⟨rfl, (List.cons.inj h).2⟩
    | cons u us => exact absurd (List.mem_cons.mpr (Or.inl (List.cons.inj h).1)) hu
  | cons x xs ih =>
    cases us with
    | nil => exact absurd (List.mem_cons.mpr (Or.inl (List.cons.inj h).1.symm)) hx
    | cons u us =>
      obtain ⟨rfl, hrest⟩ := List.cons.inj h
      obtain ⟨rfl, hvs⟩ := ih (fun hm => hx (List.mem_cons_of_mem x hm))
        (fun hm => hu (List.mem_cons_of_mem x hm)) hrest
      exact ⟨rfl, hvs⟩

theorem notMem_padZero {c : Char} (hc : c.isDigit = false) (width n : ℕ) :
    c ∉ padZero width n := by
  intro h
  rw [isDigit_of_mem_padZero h] at hc
  cases hc

/-- A date has no bar in it. -/
theorem bar_notMem_dateText (d : ℤ) : '|' ∉ dateText d := by
  have hdigits := @notMem_padZero '|' (by decide)
  simp [dateText, hdigits]

/-- A day is given by its year, month and day of the month. -/
theorem days_eq_of_date {d d' : ℤ} (hshard : ShardId.ofDays d = ShardId.ofDays d')
    (hday : dayOfMonth d = dayOfMonth d') : d = d' := by
  have hindex := congrArg ShardId.index hshard
  rw [ShardId.index_ofDays, ShardId.index_ofDays] at hindex
  have hm := marchMonth_lt (dayOfYear_le d)
  have hm' := marchMonth_lt (dayOfYear_le d')
  have hyear : marchYear d = marchYear d' := by omega
  have hmonth : marchMonth (dayOfYear d) = marchMonth (dayOfYear d') := by omega
  have hle : ∀ e : ℤ, (153 * marchMonth (dayOfYear e) + 2) / 5 ≤ dayOfYear e := by
    intro e
    unfold marchMonth
    omega
  have hdoy : dayOfYear d = dayOfYear d' := by
    have h1 := hle d
    have h2 := hle d'
    unfold dayOfMonth at hday
    rw [hmonth] at hday h1
    omega
  have hy := (yearOfEra_spec (dayOfEra_lt d)).1
  have hy' := (yearOfEra_spec (dayOfEra_lt d')).1
  unfold marchYear at hyear
  have hera : (d + 719468) / 146097 = (d' + 719468) / 146097 := by omega
  have hyoe : yearOfEra (dayOfEra d) = yearOfEra (dayOfEra d') := by omega
  rw [days_eq d, days_eq d', hera, hyoe, hdoy]

/-- **A date names one day**, from the year 0 on. -/
theorem dateText_injective {d d' : ℤ} (hd : 0 ≤ (ShardId.ofDays d).year)
    (hd' : 0 ≤ (ShardId.ofDays d').year) (h : dateText d = dateText d') : d = d' := by
  have hdash := @notMem_padZero '-' (by decide)
  obtain ⟨hyear, hrest⟩ := split_at_first (hdash _ _) (hdash _ _) h
  obtain ⟨hmonth, hday⟩ := split_at_first (hdash _ _) (hdash _ _) hrest
  have hy := padZero_injective 4 hyear
  have hm := padZero_injective 2 hmonth
  have hshard : ShardId.ofDays d = ShardId.ofDays d' := by
    have hyint : (ShardId.ofDays d).year = (ShardId.ofDays d').year := by omega
    cases hs : ShardId.ofDays d
    cases hs' : ShardId.ofDays d'
    rw [hs, hs'] at hyint hm
    rw [ShardId.mk.injEq]
    exact ⟨hyint, hm⟩
  exact days_eq_of_date hshard (padZero_injective 2 hday)

/-- No year from 1970 on is negative. -/
theorem year_nonneg {d : ℤ} (h : 0 ≤ d) : 0 ≤ (ShardId.ofDays d).year := by
  have hmono := ShardId.index_mono h
  have hepoch : (ShardId.ofDays 0).index = 23641 := by decide
  have hmonth := (ShardId.ofDays_month d).2
  unfold ShardId.index at hmono hepoch
  omega

-- the date of the timestamp 1700000000
example : dateText 19675 = "2023-11-14".toList := by decide

end NostrSearch.Core
