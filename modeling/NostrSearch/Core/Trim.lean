import NostrSearch.Core.Text
import Mathlib.Data.Bool.AllAny
import Mathlib.Data.List.DropRight

/-!
# Trimming

What `trim` takes off a string and what it leaves, and the length of a string in bytes.
-/

namespace NostrSearch.Core

theorem byteLen_cons (c : Char) (cs : List Char) : byteLen (c :: cs) = c.utf8Size + byteLen cs := by
  rw [byteLen, List.map_cons, List.sum_cons, byteLen]

theorem byteLen_append (a b : List Char) : byteLen (a ++ b) = byteLen a + byteLen b := by
  rw [byteLen, List.map_append, List.sum_append, byteLen, byteLen]

theorem trim_eq (s : List Char) : trim s = (s.dropWhile isWhitespace).rdropWhile isWhitespace := rfl

/-- What `trim` takes off is blank. -/
theorem exists_trim (s : List Char) :
    ∃ a b, s = a ++ trim s ++ b ∧ (∀ c ∈ a, isWhitespace c = true) ∧
      ∀ c ∈ b, isWhitespace c = true := by
  refine ⟨s.takeWhile isWhitespace, (s.dropWhile isWhitespace).rtakeWhile isWhitespace, ?_,
    fun c hc => List.mem_takeWhile_imp hc, fun c hc => List.mem_rtakeWhile_imp hc⟩
  rw [trim_eq, List.append_assoc, List.rdropWhile_append_rtakeWhile,
    List.takeWhile_append_dropWhile]

/-- A string is left as it is if and only if it neither begins nor ends with a blank. -/
theorem trim_eq_self_iff {s : List Char} :
    trim s = s ↔ (∀ c, s.head? = some c → isWhitespace c = false) ∧
      ∀ c, s.getLast? = some c → isWhitespace c = false := by
  have hfront : s.dropWhile isWhitespace = s ↔ ∀ c, s.head? = some c → isWhitespace c = false := by
    cases s with
    | nil => simp
    | cons c s => simp [List.dropWhile_eq_self_iff]
  have hback : s.rdropWhile isWhitespace = s ↔
      ∀ c, s.getLast? = some c → isWhitespace c = false := by
    rw [List.rdropWhile_eq_self_iff]
    constructor
    · intro h c hc
      have hne : s ≠ [] := by
        rintro rfl
        cases hc
      rw [← (List.getLast_eq_iff_getLast?_eq_some hne).mpr hc]
      exact Bool.eq_false_iff.mpr (h hne)
    · intro h hne
      exact Bool.eq_false_iff.mp (h _ (List.getLast?_eq_some_getLast hne))
  rw [← hfront, ← hback]
  constructor
  · intro h
    -- neither end can have lost anything
    have hlen := congrArg List.length h
    have hdrop := (List.dropWhile_suffix (l := s) isWhitespace).length_le
    have hrdrop := List.IsPrefix.length_le <|
      List.rdropWhile_prefix isWhitespace (s.dropWhile isWhitespace)
    rw [trim_eq] at hlen
    have hself : s.dropWhile isWhitespace = s :=
      (List.dropWhile_suffix isWhitespace).eq_of_length (by omega)
    rw [trim_eq, hself] at h
    exact ⟨hself, h⟩
  · rintro ⟨hdrop, hrdrop⟩
    rw [trim_eq, hdrop, hrdrop]

/-- A string without blanks is left as it is. -/
theorem trim_of_no_blank {s : List Char} (h : ∀ c ∈ s, isWhitespace c = false) : trim s = s := by
  rw [trim_eq_self_iff]
  exact ⟨fun c hc => h c (List.mem_of_head? hc), fun c hc => h c (List.mem_of_getLast? hc)⟩

theorem trim_trim (s : List Char) : trim (trim s) = trim s := by
  obtain ⟨rest, hrest⟩ := List.rdropWhile_prefix isWhitespace (s.dropWhile isWhitespace)
  rw [← trim_eq] at hrest
  rw [trim_eq_self_iff]
  constructor
  · intro c hc
    -- it begins where the string without its first blanks begins
    have hhead : (s.dropWhile isWhitespace).head? = some c := by
      rw [← hrest, List.head?_append, hc, Option.some_or]
    have hnot := List.head?_dropWhile_not isWhitespace s
    rw [hhead] at hnot
    exact Bool.eq_false_iff.mpr (by simpa using hnot)
  · intro c hc
    have hne : trim s ≠ [] := by
      intro hnil
      rw [hnil] at hc
      cases hc
    rw [← (List.getLast_eq_iff_getLast?_eq_some hne).mpr hc]
    exact Bool.eq_false_iff.mpr (List.rdropWhile_last_not isWhitespace _ hne)

/-! ## ASCII -/

theorem byteLen_of_ascii {s : List Char} (h : ∀ c ∈ s, c.toNat < 128) : byteLen s = s.length := by
  induction s with
  | nil => rfl
  | cons c s ih =>
    obtain ⟨hc, hs⟩ := List.forall_mem_cons.mp h
    have hsize : c.utf8Size = 1 := by
      rw [Char.utf8Size_eq_one_iff]
      exact UInt32.le_iff_toNat_le.mpr (Nat.le_of_lt_succ hc)
    rw [byteLen_cons, ih hs, hsize, List.length_cons, Nat.add_comm]

/-- Lowercase comes from ASCII only where it is ASCII. -/
theorem toNat_of_toLower {c : Char} (h : c.toLower.toNat < 128) : c.toNat < 128 := by
  unfold Char.toLower at h
  split at h
  case isTrue hupper =>
    have hle : c.val.toNat ≤ 90 := UInt32.le_iff_toNat_le.mp hupper.2
    exact Nat.lt_of_le_of_lt hle (by decide)
  case isFalse => exact h

/-- What holds of the ASCII characters holds of each. -/
theorem of_ascii {P : Char → Prop} (hall : ∀ n < 128, P (Char.ofNat n)) {c : Char}
    (h : c.toNat < 128) : P c := by
  have hc := hall c.toNat h
  rwa [Char.ofNat_toNat] at hc

end NostrSearch.Core
