import Mathlib.Data.List.Sort
import Mathlib.Tactic

/-!
# Keeping what carries the weight

Elements of a linear order are ranked, smallest first, and each of them has a weight. `heaviest`
keeps the front of the ranking until the weights of what is kept come to `want`, and at least
`least` elements. Two things are used of it: it does not depend on the order the elements are given
in, and elements added behind what is kept only make it longer, as long as `want` does not fall
(`heaviest_append`).
-/

namespace NostrSearch.Lib

variable {α : Type*} {weight : α → ℕ} {want want' least : ℕ}

/-- How many elements, from the front, it takes to come from `acc` to `want`: all of them if their
weights do not suffice. -/
def cover (weight : α → ℕ) (want : ℕ) : ℕ → List α → ℕ
  | _, [] => 0
  | acc, x :: xs => if want ≤ acc + weight x then 1 else cover weight want (acc + weight x) xs + 1

theorem cover_map {β : Type*} (f : β → α) (acc : ℕ) (l : List β) :
    cover weight want acc (l.map f) = cover (fun b => weight (f b)) want acc l := by
  induction l generalizing acc with
  | nil => rfl
  | cons x xs ih => rw [List.map_cons, cover, cover, ih]

theorem cover_le_length (acc : ℕ) (l : List α) : cover weight want acc l ≤ l.length := by
  induction l generalizing acc with
  | nil => exact le_rfl
  | cons x xs ih =>
    rw [cover, List.length_cons]
    split
    · omega
    · exact Nat.succ_le_succ (ih _)

/-- So many elements are enough, where all of them are. -/
theorem le_take_cover {acc : ℕ} {l : List α} (h : want ≤ acc + (l.map weight).sum) :
    want ≤ acc + ((l.take (cover weight want acc l)).map weight).sum := by
  induction l generalizing acc with
  | nil => exact h
  | cons x xs ih =>
    rw [List.map_cons, List.sum_cons, ← Nat.add_assoc] at h
    rw [cover]
    split
    case isTrue henough => simpa using henough
    case isFalse =>
      rw [List.take_succ_cons, List.map_cons, List.sum_cons, ← Nat.add_assoc]
      exact ih h

/-- And no fewer are, but for none at all. -/
theorem cover_le_of_le {acc n : ℕ} {l : List α} (hn : 0 < n)
    (h : want ≤ acc + ((l.take n).map weight).sum) : cover weight want acc l ≤ n := by
  induction l generalizing acc n with
  | nil => exact Nat.zero_le n
  | cons x xs ih =>
    obtain ⟨n, rfl⟩ : ∃ k, n = k + 1 := ⟨n - 1, by omega⟩
    rw [List.take_succ_cons, List.map_cons, List.sum_cons, ← Nat.add_assoc] at h
    rw [cover]
    split
    case isTrue => omega
    case isFalse hnot =>
      refine Nat.succ_le_succ ?_
      cases n with
      | zero => exact absurd h (by simpa using hnot)
      | succ n => exact ih (Nat.succ_pos n) h

/-- What suffices of a longer list does not suffice earlier for more. -/
theorem cover_le (hwant : want ≤ want') {n acc : ℕ} {s s' : List α} (hfront : s.take n <+: s')
    (hn : cover weight want acc s ≤ n) : cover weight want acc s ≤ cover weight want' acc s' := by
  induction s generalizing n acc s' with
  | nil => exact Nat.zero_le _
  | cons x xs ih =>
    cases n with
    | zero =>
      exfalso
      rw [cover] at hn
      split at hn
      · omega
      · omega
    | succ n =>
      obtain ⟨rest, rfl⟩ := hfront
      rw [List.take_succ_cons, List.cons_append, cover, cover]
      rw [cover] at hn
      by_cases henough : want ≤ acc + weight x
      · rw [if_pos henough]
        split
        · exact le_rfl
        · omega
      · rw [if_neg henough] at hn ⊢
        rw [if_neg (by omega)]
        have hrest := @ih n (acc + weight x) (xs.take n ++ rest) (List.prefix_append _ _) (by omega)
        omega

variable [LinearOrder α]

/-- The elements in their order. -/
def ranked (l : List α) : List α := l.insertionSort (· ≤ ·)

/-- The front of the ranking whose weights come to `want`, and at least `least` elements. -/
def heaviest (weight : α → ℕ) (want least : ℕ) (l : List α) : List α :=
  (ranked l).take (max (cover weight want 0 (ranked l)) least)

theorem ranked_perm (l : List α) : (ranked l).Perm l := List.perm_insertionSort _ l

theorem ranked_pairwise (l : List α) : (ranked l).Pairwise (· ≤ ·) :=
  List.pairwise_insertionSort _ l

/-- A list sorted by a key. -/
theorem pairwise_insertionSort_key {β : Type*} (key : β → α) (l : List β) :
    (l.insertionSort fun a b => key a ≤ key b).Pairwise fun a b => key a ≤ key b := by
  have htotal : Std.Total fun a b : β => key a ≤ key b := ⟨fun a b => le_total (key a) (key b)⟩
  have htrans : IsTrans β fun a b : β => key a ≤ key b := ⟨fun _ _ _ => le_trans⟩
  exact List.pairwise_insertionSort _ l

/-- There is one ranking of the same elements. -/
theorem ranked_eq {l s : List α} (hperm : s.Perm l) (hsorted : s.Pairwise (· ≤ ·)) :
    ranked l = s :=
  ((ranked_perm l).trans hperm.symm).eq_of_pairwise
    (fun _ _ _ _ hab hba => le_antisymm hab hba) (ranked_pairwise l) hsorted

/-- The order the elements are given in does not matter. -/
theorem heaviest_perm {l l' : List α} (h : l.Perm l') :
    heaviest weight want least l = heaviest weight want least l' := by
  have hranked : ranked l = ranked l' := ranked_eq ((ranked_perm l').trans h.symm) (ranked_pairwise l')
  rw [heaviest, heaviest, hranked]

/-- **Elements added behind.** Whatever is added behind all that is kept, what was kept stays in
front. -/
theorem heaviest_append {l new : List α} (hwant : want ≤ want')
    (hnew : ∀ x ∈ new, ∀ y ∈ heaviest weight want least l, y ≤ x) :
    heaviest weight want least l <+: heaviest weight want' least (l ++ new) := by
  have hkept : heaviest weight want least l =
      (ranked l).take (max (cover weight want 0 (ranked l)) least) := rfl
  set n := max (cover weight want 0 (ranked l)) least
  rw [hkept] at hnew ⊢
  have hsorted := ranked_pairwise l
  rw [← List.take_append_drop n (ranked l), List.pairwise_append] at hsorted
  -- the ranking of all begins with what is kept
  have hall : ranked (l ++ new) = (ranked l).take n ++ ranked ((ranked l).drop n ++ new) := by
    apply ranked_eq
    · refine ((ranked_perm _).append_left _).trans ?_
      rw [← List.append_assoc, List.take_append_drop]
      exact (ranked_perm l).append_right new
    · rw [List.pairwise_append]
      refine ⟨hsorted.1, ranked_pairwise _, fun y hy x hx => ?_⟩
      rcases List.mem_append.mp ((ranked_perm _).subset hx) with hdrop | hx
      · exact hsorted.2.2 y hy x hdrop
      · exact hnew x hx y hy
  have hfront : (ranked l).take n <+: ranked (l ++ new) := by
    rw [hall]
    exact List.prefix_append _ _
  have hcover : cover weight want 0 (ranked l) ≤ cover weight want' 0 (ranked (l ++ new)) :=
    cover_le hwant hfront (Nat.le_max_left _ _)
  have hn : n ≤ max (cover weight want' 0 (ranked (l ++ new))) least :=
    max_le_max hcover le_rfl
  rw [heaviest, List.prefix_take_iff]
  exact ⟨hfront, le_trans (List.length_take_le _ _) hn⟩

end NostrSearch.Lib
