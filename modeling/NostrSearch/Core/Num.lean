import Mathlib.Tactic

/-!
# Fixed-width arithmetic

Counters and timestamps are `ℕ` in this development. Where the width of the source's type
shows, the operation is one of these: `u64::saturating_add`, and `+` on a `u64` in a release
build, which wraps.
-/

namespace NostrSearch.Core

/-- `u64::MAX`. -/
def u64Max : ℕ := 2 ^ 64 - 1

/-- `u64::saturating_add`. -/
def satAdd (a b : ℕ) : ℕ := min (a + b) u64Max

/-- `a + b` on `u64`, overflow checks off. -/
def wrapAdd (a b : ℕ) : ℕ := (a + b) % 2 ^ 64

theorem satAdd_le (a b : ℕ) : satAdd a b ≤ a + b := Nat.min_le_left _ _

theorem satAdd_mono {a a' b : ℕ} (h : a ≤ a') : satAdd a b ≤ satAdd a' b := by
  unfold satAdd
  omega

/-- `iter().max().unwrap_or(0)` is at least each element. -/
theorem le_foldl_max {l : List ℕ} {a b : ℕ} (h : a ≤ b ∨ a ∈ l) : a ≤ l.foldl max b := by
  induction l generalizing b with
  | nil => exact h.resolve_right List.not_mem_nil
  | cons x l ih =>
    rw [List.foldl_cons]
    apply ih
    rcases h with hb | hmem
    · exact Or.inl (le_trans hb (Nat.le_max_left _ _))
    · rcases List.mem_cons.mp hmem with rfl | hl
      · exact Or.inl (Nat.le_max_right _ _)
      · exact Or.inr hl

/-- It is one of them, or what it started from. -/
theorem foldl_max_mem (l : List ℕ) (b : ℕ) : l.foldl max b = b ∨ l.foldl max b ∈ l := by
  induction l generalizing b with
  | nil => exact Or.inl rfl
  | cons x l ih =>
    rw [List.foldl_cons]
    rcases ih (max b x) with h | h
    · rw [h]
      rcases Nat.le_total b x with hbx | hxb
      · exact Or.inr (by rw [Nat.max_eq_right hbx]; exact List.mem_cons_self)
      · exact Or.inl (Nat.max_eq_left hxb)
    · exact Or.inr (List.mem_cons_of_mem x h)

end NostrSearch.Core
