import NostrSearch.Core.Dates
import Mathlib.Data.Char
import Mathlib.Data.List.Lex

/-!
# Dates in the order of their texts

`YYYY-MM-DD` sorts like the days it names, as long as the year has four digits (`dateText_lt_iff`).
From the year 10000 on it does not: the texts of 9999 come after those of 10000.
-/

namespace NostrSearch.Core

open NostrSearch.Lib

/-! ## Numerals of one length -/

theorem numeralValue_cons (c : Char) (ds : List Char) :
    numeralValue (c :: ds) = (c.toNat - '0'.toNat) * 10 ^ ds.length + numeralValue ds := by
  rw [numeralValue, Nat.ofDigitChars_cons, Nat.ofDigitChars_eq_ofDigitChars_zero, Nat.mul_zero,
    Nat.zero_add, Nat.mul_comm]

theorem numeralValue_lt {ds : List Char} (h : ∀ c ∈ ds, c.isDigit = true) :
    numeralValue ds < 10 ^ ds.length := by
  induction ds with
  | nil => exact Nat.one_pos
  | cons c ds ih =>
    have hc := (digit_eq (h c List.mem_cons_self)).1
    have hrest := ih fun x hx => h x (List.mem_cons_of_mem c hx)
    have hmul : (c.toNat - '0'.toNat) * 10 ^ ds.length ≤ 9 * 10 ^ ds.length :=
      Nat.mul_le_mul_right _ (by omega)
    rw [numeralValue_cons, List.length_cons, pow_succ]
    omega

theorem char_lt_of_digit_lt {c d : Char} (h : c.toNat - '0'.toNat < d.toNat - '0'.toNat) :
    c < d := by
  show c.val < d.val
  rw [UInt32.lt_iff_toNat_lt]
  show c.toNat < d.toNat
  omega

/-- Numerals of one length are in the order of their values. -/
theorem lt_of_numeralValue_lt {a b : List Char} (hlen : a.length = b.length)
    (ha : ∀ c ∈ a, c.isDigit = true) (hb : ∀ c ∈ b, c.isDigit = true)
    (h : numeralValue a < numeralValue b) : a < b := by
  induction a generalizing b with
  | nil =>
    cases b with
    | nil => exact absurd h (lt_irrefl _)
    | cons d b => cases hlen
  | cons c a ih =>
    cases b with
    | nil => cases hlen
    | cons d b =>
      have hlen' : a.length = b.length := Nat.succ.inj hlen
      have ha' := fun x hx => ha x (List.mem_cons_of_mem c hx)
      have hb' := fun x hx => hb x (List.mem_cons_of_mem d hx)
      rw [numeralValue_cons, numeralValue_cons, hlen'] at h
      rcases lt_trichotomy (c.toNat - '0'.toNat) (d.toNat - '0'.toNat) with hlt | heq | hgt
      · exact List.Lex.rel (char_lt_of_digit_lt hlt)
      · have hcd : c = d := by
          rw [← (digit_eq (ha c List.mem_cons_self)).2, heq,
            (digit_eq (hb d List.mem_cons_self)).2]
        rw [heq] at h
        rw [hcd]
        exact List.Lex.cons (ih hlen' ha' hb' (Nat.lt_of_add_lt_add_left h))
      · -- a greater first digit outweighs all that follows
        have hbound := numeralValue_lt hb'
        have hmul : (d.toNat - '0'.toNat + 1) * 10 ^ b.length ≤
            (c.toNat - '0'.toNat) * 10 ^ b.length := Nat.mul_le_mul_right _ hgt
        rw [Nat.add_mul, Nat.one_mul] at hmul
        omega

theorem length_padZero {width n : ℕ} (hwidth : 0 < width) (hn : n < 10 ^ width) :
    (padZero width n).length = width := by
  have hlen := (Nat.length_toDigits_le_iff (b := 10) (by decide) hwidth).mpr hn
  rw [padZero, List.length_append, List.length_replicate]
  omega

theorem padZero_lt {width n m : ℕ} (hwidth : 0 < width) (h : n < m) (hm : m < 10 ^ width) :
    padZero width n < padZero width m := by
  refine lt_of_numeralValue_lt ?_ (fun c => isDigit_of_mem_padZero)
    (fun c => isDigit_of_mem_padZero) ?_
  · rw [length_padZero hwidth (h.trans hm), length_padZero hwidth hm]
  · rwa [numeralValue_padZero, numeralValue_padZero]

/-- What follows does not matter to two texts of one length. -/
theorem append_lt_append_of_lt {a b : List Char} (hlen : a.length = b.length) (h : a < b)
    (x y : List Char) : a ++ x < b ++ y := by
  induction a generalizing b with
  | nil =>
    cases b with
    | nil => exact absurd h (lt_irrefl _)
    | cons d b => cases hlen
  | cons c a ih =>
    cases b with
    | nil => cases hlen
    | cons d b =>
      cases h with
      | cons h => exact List.Lex.cons (ih (Nat.succ.inj hlen) h)
      | rel h => exact List.Lex.rel h

theorem append_lt_append_left (p : List Char) {x y : List Char} (h : x < y) : p ++ x < p ++ y := by
  induction p with
  | nil => exact h
  | cons c p ih => exact List.Lex.cons ih

/-! ## Dates -/

theorem dayOfMonth_lt_of_same {d d' : ℤ} (h : d < d')
    (hshard : ShardId.ofDays d = ShardId.ofDays d') : dayOfMonth d < dayOfMonth d' := by
  have hindex := congrArg ShardId.index hshard
  rw [ShardId.index_ofDays, ShardId.index_ofDays] at hindex
  have hm := marchMonth_lt (dayOfYear_le d)
  have hm' := marchMonth_lt (dayOfYear_le d')
  have hmonth : marchMonth (dayOfYear d) = marchMonth (dayOfYear d') := by omega
  have hdoy : dayOfYear d < dayOfYear d' := by
    rcases marchYear_mono h.le with hyear | ⟨hyear, hle⟩
    · omega
    · refine lt_of_le_of_ne hle fun heq => h.ne ?_
      exact days_eq_of_date hshard (by rw [dayOfMonth, dayOfMonth, heq])
  -- the month begins on the same day of the year
  have hstart : (153 * marchMonth (dayOfYear d) + 2) / 5 ≤ dayOfYear d := by
    unfold marchMonth
    omega
  unfold dayOfMonth
  rw [← hmonth]
  omega

theorem dayOfMonth_le (d : ℤ) : dayOfMonth d ≤ 31 := by
  have h := dayOfYear_le d
  unfold dayOfMonth marchMonth
  omega

private theorem dateText_lt {d d' : ℤ} (h : d < d') (hd : 0 ≤ (ShardId.ofDays d).year)
    (hd' : (ShardId.ofDays d').year < 10000) : dateText d < dateText d' := by
  have hindex := ShardId.index_mono h.le
  have hm := ShardId.ofDays_month d
  have hm' := ShardId.ofDays_month d'
  unfold ShardId.index at hindex
  have hwidth : ∀ {w n : ℕ}, 0 < w → n < 10 ^ w → (padZero w n).length = w :=
    fun hw hn => length_padZero hw hn
  unfold dateText
  rcases lt_or_eq_of_le (show (ShardId.ofDays d).year ≤ (ShardId.ofDays d').year by omega)
    with hyear | hyear
  · refine append_lt_append_of_lt ?_ (padZero_lt (by decide) (by omega) (by omega)) _ _
    rw [hwidth (by decide) (by omega), hwidth (by decide) (by omega)]
  · rw [hyear]
    refine append_lt_append_left _ (List.Lex.cons ?_)
    rcases lt_or_eq_of_le (show (ShardId.ofDays d).month ≤ (ShardId.ofDays d').month by omega)
      with hmonth | hmonth
    · refine append_lt_append_of_lt ?_ (padZero_lt (by decide) hmonth (by omega)) _ _
      rw [hwidth (by decide) (by omega), hwidth (by decide) (by omega)]
    · rw [hmonth]
      refine append_lt_append_left _ (List.Lex.cons ?_)
      have hday := dayOfMonth_le d'
      refine padZero_lt (by decide) (dayOfMonth_lt_of_same h ?_) (by omega)
      cases hs : ShardId.ofDays d
      cases hs' : ShardId.ofDays d'
      rw [hs, hs'] at hyear hmonth
      rw [ShardId.mk.injEq]
      exact ⟨hyear, hmonth⟩

/-- A day whose year is written with four digits. -/
structure FourDigitYear (d : ℤ) : Prop where
  nonneg : 0 ≤ (ShardId.ofDays d).year
  lt : (ShardId.ofDays d).year < 10000

/-- **Dates sort like days**, as long as years have four digits. -/
theorem dateText_lt_iff {d d' : ℤ} (hd : FourDigitYear d) (hd' : FourDigitYear d') :
    dateText d < dateText d' ↔ d < d' := by
  constructor
  · intro h
    rcases lt_trichotomy d d' with h' | rfl | h'
    · exact h'
    · exact absurd h (lt_irrefl _)
    · exact absurd (h.trans (dateText_lt h' hd'.nonneg hd.lt)) (lt_irrefl _)
  · exact fun h => dateText_lt h hd.nonneg hd'.lt

theorem dateText_le_iff {d d' : ℤ} (hd : FourDigitYear d) (hd' : FourDigitYear d') :
    dateText d ≤ dateText d' ↔ d ≤ d' := by
  rw [← not_lt, dateText_lt_iff hd' hd, not_lt]

end NostrSearch.Core
