import Mathlib.Data.Finmap
import Mathlib.Data.Finset.Sort
import Mathlib.Data.List.Sort
import Mathlib.Tactic

/-!
# Rankings

The entries of a map by a count, the largest first, and by key where counts are equal. That is a
total order of the entries, so that the order in which the map is walked does not show in `ranking`
(`sort_walk`). A ranking is cut in two ways: below a count, and after so
many entries; what is cut off comes after all that is kept.
-/

namespace NostrSearch.Lib

/-- The entries of a map, in the order in which it is walked. -/
def IsWalk {α β : Type*} [DecidableEq α] (m : Finmap fun _ : α => β) (walk : List (α × β)) : Prop :=
  (walk.map Prod.fst).Nodup ∧ ∀ k b, (k, b) ∈ walk ↔ m.lookup k = some b

variable {α β : Type*} [LinearOrder α]

/-- By count, the largest first, and then by key. -/
def Ranks (a b : α × ℕ) : Prop := b.2 < a.2 ∨ a.2 = b.2 ∧ a.1 ≤ b.1

instance : DecidableRel (Ranks (α := α)) := fun _ _ => inferInstanceAs (Decidable (_ ∨ _))

theorem isTrans_le (α : Type*) [LinearOrder α] : IsTrans α fun a b => a ≤ b := inferInstance

theorem antisymm_le (α : Type*) [LinearOrder α] : Std.Antisymm fun a b : α => a ≤ b := inferInstance

/-- The entries of a map, by a count. -/
def ranking [DecidableEq α] (m : Finmap fun _ : α => β) (count : β → ℕ) : List (α × ℕ) :=
  let keys := @Finset.sort α m.keys (fun a b => a ≤ b) _ (isTrans_le α) (antisymm_le α) _
  (keys.filterMap fun k => (m.lookup k).map fun b => (k, count b)).insertionSort Ranks

/-- The first so many of those whose count is large enough. -/
def cutRanking (atLeast atMost : ℕ) (l : List (α × ℕ)) : List (α × ℕ) :=
  (l.filter fun e => decide (atLeast ≤ e.2)).take atMost

theorem ranks_total : Std.Total (Ranks (α := α)) := by
  refine ⟨fun a b => ?_⟩
  unfold Ranks
  rcases lt_trichotomy a.2 b.2 with h | h | h
  · exact Or.inr (Or.inl h)
  · rcases le_total a.1 b.1 with hkey | hkey
    · exact Or.inl (Or.inr ⟨h, hkey⟩)
    · exact Or.inr (Or.inr ⟨h.symm, hkey⟩)
  · exact Or.inl (Or.inl h)

theorem ranks_trans : IsTrans (α × ℕ) Ranks := by
  refine ⟨fun a b c hab hbc => ?_⟩
  unfold Ranks at *
  rcases hab with hab | ⟨hab, hkey⟩
  · left
    omega
  · rcases hbc with hbc | ⟨hbc, hkey'⟩
    · left
      omega
    · exact Or.inr ⟨hab.trans hbc, hkey.trans hkey'⟩

theorem ranks_antisymm {a b : α × ℕ} (hab : Ranks a b) (hba : Ranks b a) : a = b := by
  unfold Ranks at hab hba
  rcases hab with hab | ⟨hcount, hkey⟩
  · omega
  · rcases hba with hba | ⟨-, hkey'⟩
    · omega
    · exact Prod.ext (le_antisymm hkey hkey') hcount

section Entries

variable [DecidableEq α] {m : Finmap fun _ : α => β} {count : β → ℕ}

theorem sorted_ranking : (ranking m count).Pairwise Ranks :=
  haveI := ranks_total (α := α)
  haveI := ranks_trans (α := α)
  List.pairwise_insertionSort Ranks _

theorem mem_ranking {k : α} {n : ℕ} :
    (k, n) ∈ ranking m count ↔ ∃ b, m.lookup k = some b ∧ count b = n := by
  rw [ranking, List.mem_insertionSort, List.mem_filterMap]
  constructor
  · rintro ⟨j, -, h⟩
    obtain ⟨b, hb, heq⟩ := Option.map_eq_some_iff.mp h
    cases heq
    exact ⟨b, hb, rfl⟩
  · rintro ⟨b, hb, rfl⟩
    refine ⟨k, ?_, by rw [hb]; rfl⟩
    rw [Finset.mem_sort, Finmap.mem_keys]
    exact Finmap.mem_of_lookup_eq_some hb

/-- Each key is there once. -/
theorem nodup_ranking : ((ranking m count).map Prod.fst).Nodup := by
  rw [ranking, ((List.perm_insertionSort Ranks _).map Prod.fst).nodup_iff, List.map_filterMap]
  refine List.Nodup.filterMap ?_ (Finset.sort_nodup m.keys (· ≤ ·))
  intro j k i hj hk
  rw [Option.mem_def, Option.map_map, Option.map_eq_some_iff] at hj hk
  obtain ⟨b, -, rfl⟩ := hj
  obtain ⟨c, -, hc⟩ := hk
  exact hc.symm

/-- Whatever the order in which the map is walked, sorting gives the same list. -/
theorem sort_walk {walk : List (α × β)} (h : IsWalk m walk) :
    (walk.map fun e => (e.1, count e.2)).insertionSort Ranks = ranking m count := by
  have := ranks_total (α := α)
  have := ranks_trans (α := α)
  have : Std.Antisymm (Ranks (α := α)) := ⟨fun _ _ => ranks_antisymm⟩
  have hperm := List.perm_insertionSort Ranks (walk.map fun e => (e.1, count e.2))
  refine List.Perm.eq_of_pairwise' (List.pairwise_insertionSort Ranks _) sorted_ranking ?_
  have hnodup : (walk.map fun e => (e.1, count e.2)).Nodup := by
    refine List.Nodup.of_map Prod.fst ?_
    rw [List.map_map]
    exact h.1
  refine hperm.trans
    ((List.perm_ext_iff_of_nodup hnodup (nodup_ranking.of_map Prod.fst)).mpr fun e => ?_)
  rw [mem_ranking, List.mem_map]
  constructor
  · rintro ⟨⟨k, b⟩, hmem, rfl⟩
    exact ⟨b, (h.2 k b).mp hmem, rfl⟩
  · rintro ⟨b, hb, hcount⟩
    exact ⟨(e.1, b), (h.2 e.1 b).mpr hb, Prod.ext rfl hcount⟩

end Entries

/-! ## Cuts -/

section Cut

variable {l : List (α × ℕ)} {atLeast atMost : ℕ} {e : α × ℕ}

omit [LinearOrder α] in
theorem mem_of_cut (h : e ∈ cutRanking atLeast atMost l) : e ∈ l ∧ atLeast ≤ e.2 := by
  have hmem := List.mem_filter.mp (List.take_subset atMost _ h)
  exact ⟨hmem.1, of_decide_eq_true hmem.2⟩

omit [LinearOrder α] in
theorem nodup_cut (h : (l.map Prod.fst).Nodup) :
    ((cutRanking atLeast atMost l).map Prod.fst).Nodup :=
  h.sublist (((List.take_sublist atMost _).trans List.filter_sublist).map Prod.fst)

/-- What is left out, though its count is large enough, comes after a full list. -/
theorem ranks_of_cut (hsorted : l.Pairwise Ranks) (he : e ∈ l) (hcount : atLeast ≤ e.2)
    (hout : e ∉ cutRanking atLeast atMost l) :
    (cutRanking atLeast atMost l).length = atMost ∧
      ∀ d ∈ cutRanking atLeast atMost l, Ranks d e := by
  have hin : e ∈ l.filter fun e => decide (atLeast ≤ e.2) :=
    List.mem_filter.mpr ⟨he, decide_eq_true hcount⟩
  have hfilter := hsorted.filter fun e => decide (atLeast ≤ e.2)
  unfold cutRanking at hout ⊢
  rw [← List.take_append_drop atMost (l.filter fun e => decide (atLeast ≤ e.2))] at hin hfilter
  have hdrop := (List.mem_append.mp hin).resolve_left hout
  refine ⟨?_, fun d hd => (List.pairwise_append.mp hfilter).2.2 d hd e hdrop⟩
  have hpos := List.length_pos_of_mem hdrop
  rw [List.length_drop] at hpos
  rw [List.length_take]
  omega

end Cut

end NostrSearch.Lib
