import Mathlib.Tactic

/-!
# Decimal numerals

A numeral without a needless zero in front is the spelling of its value (`toDigits_numeralValue`).
-/

namespace NostrSearch.Lib

/-- Decimal digits, one at least. -/
def IsNumeral (ds : List Char) : Prop := ds ≠ [] ∧ ∀ c ∈ ds, c.isDigit = true

/-- The value of a numeral. -/
abbrev numeralValue (ds : List Char) : ℕ := Nat.ofDigitChars 10 ds 0

theorem numeralValue_append_singleton (ds : List Char) (c : Char) :
    numeralValue (ds ++ [c]) = 10 * numeralValue ds + (c.toNat - '0'.toNat) := by
  rw [numeralValue, Nat.ofDigitChars_append, Nat.ofDigitChars_cons, Nat.ofDigitChars_nil]

/-- A digit is the spelling of its value. -/
theorem digit_eq {c : Char} (h : c.isDigit = true) :
    c.toNat - '0'.toNat < 10 ∧ (c.toNat - '0'.toNat).digitChar = c := by
  obtain ⟨hlow, hhigh⟩ : 48 ≤ c.toNat ∧ c.toNat ≤ 57 := by
    simpa [Char.isDigit, UInt32.le_iff_toNat_le] using h
  have hall : ∀ n < 58, 48 ≤ n → (n - '0'.toNat).digitChar = Char.ofNat n := by decide
  have hzero : '0'.toNat = 48 := rfl
  refine ⟨by omega, ?_⟩
  rw [hall c.toNat (by omega) hlow, Char.ofNat_toNat]

/-- Only zero is spelled with a zero in front. -/
theorem head?_toDigits {n : ℕ} (h : 0 < n) : (Nat.toDigits 10 n).head? ≠ some '0' := by
  induction n using Nat.strong_induction_on with
  | _ n ih =>
    by_cases hlt : n < 10
    · have hall : ∀ m < 10, 0 < m → m.digitChar ≠ '0' := by decide
      rw [Nat.toDigits_of_lt_base hlt, List.head?_cons]
      exact fun hzero => hall n hlt h (Option.some.inj hzero)
    · rw [Nat.toDigits_of_base_le (by decide) (by omega), List.head?_append_of_ne_nil _
        Nat.toDigits_ne_nil]
      exact ih (n / 10) (by omega) (by omega)

theorem toDigits_numeralValue {ds : List Char} (h : IsNumeral ds)
    (hzero : 1 < ds.length → ds.head? ≠ some '0') : Nat.toDigits 10 (numeralValue ds) = ds := by
  induction ds using List.reverseRecOn with
  | nil => exact absurd rfl h.1
  | append_singleton ds c ih =>
    obtain ⟨hlt, hchar⟩ := digit_eq (h.2 c (by simp))
    rw [numeralValue_append_singleton]
    by_cases hnil : ds = []
    · subst hnil
      show Nat.toDigits 10 (10 * 0 + (c.toNat - '0'.toNat)) = [c]
      rw [Nat.mul_zero, Nat.zero_add, Nat.toDigits_of_lt_base hlt, hchar]
    · have hpos : 0 < ds.length := List.length_pos_of_ne_nil hnil
      have hhead : ds.head? ≠ some '0' := by
        have hlong := hzero (by rw [List.length_append, List.length_singleton]; omega)
        rwa [List.head?_append_of_ne_nil _ hnil] at hlong
      have hrest := ih ⟨hnil, fun x hx => h.2 x (List.mem_append_left _ hx)⟩ fun _ => hhead
      have hvalue : 0 < numeralValue ds := by
        refine Nat.pos_of_ne_zero fun hz => hhead ?_
        rw [hz, Nat.toDigits_zero] at hrest
        rw [← hrest, List.head?_cons]
      rw [← Nat.toDigits_append_toDigits (by decide) hvalue hlt, hrest,
        Nat.toDigits_of_lt_base hlt, hchar]

end NostrSearch.Lib
