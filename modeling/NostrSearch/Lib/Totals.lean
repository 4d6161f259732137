import Mathlib.Data.Finmap
import Mathlib.Algebra.BigOperators.Group.Finset.Basic
import Mathlib.Algebra.Order.BigOperators.Group.Finset
import Mathlib.Tactic

/-!
# Totals over a finite map

`total m w` adds up a weight over the values of a finite map. `total_insert` is how a total
moves when one value is replaced, which is what lets a running tally be kept next to the map
instead of being recomputed; `total_eq_sum_map` reads a total off any enumeration of the keys,
which is what recomputing does. `support` is the set of keys that count at all, and a total is
the size of its support exactly when no value weighs more than one.
-/

namespace NostrSearch.Lib

variable {κ β : Type*} [DecidableEq κ]

/-- The sum of the weights of all values. -/
def total (m : Finmap fun _ : κ => β) (w : β → ℕ) : ℕ :=
  ∑ k ∈ m.keys, (m.lookup k).elim 0 w

/-- The keys whose value has a weight. -/
def support (m : Finmap fun _ : κ => β) (w : β → ℕ) : Finset κ :=
  m.keys.filter fun k => 0 < (m.lookup k).elim 0 w

variable {m : Finmap fun _ : κ => β} {w : β → ℕ}

/-- A key that is not in the map weighs nothing. -/
theorem elim_lookup_of_notMem {k : κ} (h : k ∉ m.keys) : (m.lookup k).elim 0 w = 0 := by
  have hnone : m.lookup k = none := Finmap.lookup_eq_none.mpr fun hk => h (Finmap.mem_keys.mpr hk)
  rw [hnone, Option.elim_none]

@[simp] theorem total_empty (w : β → ℕ) : total (∅ : Finmap fun _ : κ => β) w = 0 := by
  rw [total, Finmap.keys_empty, Finset.sum_empty]

/-- A total over any larger set of keys is the same total. -/
theorem total_eq_sum_of_subset {s : Finset κ} (h : m.keys ⊆ s) :
    total m w = ∑ k ∈ s, (m.lookup k).elim 0 w := by
  unfold total
  apply Finset.sum_subset h
  intro k _ hk
  exact elim_lookup_of_notMem hk

/-- Replacing the value of `k` takes its old weight out of the total and puts the new one in. -/
theorem total_insert (m : Finmap fun _ : κ => β) (w : β → ℕ) (k : κ) (b : β) :
    total (m.insert k b) w + (m.lookup k).elim 0 w = total m w + w b := by
  have hsub : m.keys ⊆ insert k m.keys := Finset.subset_insert k m.keys
  have hsub' : (m.insert k b).keys ⊆ insert k m.keys := by
    intro j hj
    rw [Finset.mem_insert, Finmap.mem_keys]
    exact (Finmap.mem_insert.mp (Finmap.mem_keys.mp hj))
  have hk : k ∈ insert k m.keys := Finset.mem_insert_self k m.keys
  rw [total_eq_sum_of_subset hsub, total_eq_sum_of_subset hsub', ← Finset.add_sum_erase _ _ hk,
    ← Finset.add_sum_erase _ _ hk, Finmap.lookup_insert, Option.elim_some]
  -- away from `k` the two maps agree
  have hrest : ∑ j ∈ (insert k m.keys).erase k, ((m.insert k b).lookup j).elim 0 w =
      ∑ j ∈ (insert k m.keys).erase k, (m.lookup j).elim 0 w := by
    apply Finset.sum_congr rfl
    intro j hj
    rw [Finmap.lookup_insert_of_ne _ (Finset.ne_of_mem_erase hj)]
  rw [hrest]
  omega

/-- A total, read off an enumeration of the keys. -/
theorem total_eq_sum_map {l : List κ} (hnodup : l.Nodup) (hmem : ∀ k, k ∈ l ↔ k ∈ m.keys) :
    total m w = (l.map fun k => (m.lookup k).elim 0 w).sum := by
  have hkeys : m.keys = l.toFinset := by
    ext k
    rw [List.mem_toFinset, hmem]
  rw [total, hkeys, List.sum_toFinset _ hnodup]

theorem mem_support {k : κ} : k ∈ support m w ↔ 0 < (m.lookup k).elim 0 w := by
  rw [support, Finset.mem_filter, and_iff_right_iff_imp]
  intro hpos
  by_contra hk
  rw [elim_lookup_of_notMem hk] at hpos
  exact absurd hpos (lt_irrefl 0)

/-- A total is at least the number of keys that count, and it is that number exactly when no
value weighs more than one. -/
theorem total_eq_card_support_iff :
    total m w = (support m w).card ↔ ∀ k b, m.lookup k = some b → w b ≤ 1 := by
  have hle : ∀ k ∈ m.keys, (if 0 < (m.lookup k).elim 0 w then 1 else 0) ≤
      (m.lookup k).elim 0 w := by
    intro k _
    split <;> omega
  have hcard : (support m w).card =
      ∑ k ∈ m.keys, if 0 < (m.lookup k).elim 0 w then 1 else 0 := by
    rw [support, Finset.card_filter]
  rw [total, hcard, eq_comm, Finset.sum_eq_sum_iff_of_le hle]
  constructor
  · intro h k b hb
    have hk : k ∈ m.keys := Finmap.mem_keys.mpr (Finmap.mem_of_lookup_eq_some hb)
    have heq := h k hk
    rw [hb, Option.elim_some] at heq
    split at heq <;> omega
  · intro h k hk
    obtain ⟨b, hb⟩ := Option.isSome_iff_exists.mp (Finmap.lookup_isSome.mpr (Finmap.mem_keys.mp hk))
    have hb1 : w b ≤ 1 := h k b hb
    rw [hb, Option.elim_some]
    split <;> omega

/-! ## Lists of additions -/

section additions

variable {l : List (κ × ℕ)}

/-- What a list of additions adds under a key that it has once. -/
theorem sum_additions_of_mem (hl : (l.map Prod.fst).Nodup) {y : κ × ℕ} (hy : y ∈ l) :
    (l.map fun x => if x.1 = y.1 then x.2 else 0).sum = y.2 := by
  induction l with
  | nil => cases hy
  | cons x l ih =>
    rw [List.map_cons, List.nodup_cons] at hl
    rw [List.map_cons, List.sum_cons]
    rcases List.mem_cons.mp hy with rfl | hmem
    · have hrest : ∀ x ∈ l, (if x.1 = y.1 then x.2 else 0) = 0 := by
        intro x hx
        rw [if_neg]
        intro hkey
        exact hl.1 (List.mem_map.mpr ⟨x, hx, hkey⟩)
      rw [if_pos rfl, List.map_congr_left hrest, List.map_const', List.sum_replicate, smul_zero,
        add_zero]
    · have hne : x.1 ≠ y.1 := by
        intro hkey
        exact hl.1 (List.mem_map.mpr ⟨y, hmem, hkey.symm⟩)
      rw [if_neg hne, zero_add, ih hl.2 hmem]

/-- Each addition keeps its sum below a bound if and only if this holds under every key. -/
theorem additions_lt_iff (hl : (l.map Prod.fst).Nodup) {f : κ → ℕ} {n : ℕ} (hf : ∀ k, f k < n) :
    (∀ y ∈ l, f y.1 + y.2 < n) ↔
      ∀ k, f k + (l.map fun x => if x.1 = k then x.2 else 0).sum < n := by
  constructor
  · intro h k
    by_cases hk : ∃ y ∈ l, y.1 = k
    · obtain ⟨y, hy, rfl⟩ := hk
      rw [sum_additions_of_mem hl hy]
      exact h y hy
    · have hnone : ∀ x ∈ l, (if x.1 = k then x.2 else 0) = 0 := by
        intro x hx
        exact if_neg fun hkey => hk ⟨x, hx, hkey⟩
      rw [List.map_congr_left hnone, List.map_const', List.sum_replicate, smul_zero, add_zero]
      exact hf k
  · intro h y hy
    rw [← sum_additions_of_mem hl hy]
    exact h y.1

end additions

/-- A value grows, at a key whose value is zero unless the key is held. -/
theorem sum_insert_update {μ : Type*} [AddCommMonoid μ] {s : Finset κ} {f : κ → μ} {k : κ}
    (h : k ∉ s → f k = 0) (x : μ) :
    ∑ j ∈ insert k s, Function.update f k (f k + x) j = ∑ j ∈ s, f j + x := by
  have hmem := Finset.mem_insert_self k s
  have hrest : ∑ j ∈ (insert k s).erase k, Function.update f k (f k + x) j =
      ∑ j ∈ (insert k s).erase k, f j :=
    Finset.sum_congr rfl fun j hj => Function.update_of_ne (Finset.ne_of_mem_erase hj) _ _
  rw [← Finset.sum_insert_of_eq_zero_if_notMem h, ← Finset.add_sum_erase _ _ hmem,
    ← Finset.add_sum_erase _ f hmem, hrest, Function.update_self]
  exact add_right_comm _ _ _

/-- A count is the sum of the counts of each kind. -/
theorem sum_countP_eq {ι : Type*} (p : ι → Bool) (f : ι → κ) {s : Finset κ} {l : List ι}
    (h : ∀ x ∈ l, p x = true → f x ∈ s) :
    ∑ k ∈ s, l.countP (fun x => p x && decide (f x = k)) = l.countP p := by
  induction l with
  | nil => simp
  | cons x l ih =>
    have hrest := ih fun y hy => h y (List.mem_cons_of_mem x hy)
    simp only [List.countP_cons, Finset.sum_add_distrib, hrest]
    congr 1
    cases hp : p x with
    | false => simp
    | true =>
      have hx : f x ∈ s := h x List.mem_cons_self hp
      simp [hx]

/-- Two families that differ at one place. -/
theorem sum_add_of_forall_ne [Fintype κ] {f g : κ → ℕ} {k : κ} (h : ∀ i, i ≠ k → f i = g i) :
    ∑ i, f i + g k = ∑ i, g i + f k := by
  have hrest : ∑ i ∈ Finset.univ.erase k, f i = ∑ i ∈ Finset.univ.erase k, g i :=
    Finset.sum_congr rfl fun i hi => h i (Finset.ne_of_mem_erase hi)
  rw [← Finset.sum_erase_add _ f (Finset.mem_univ k), ← Finset.sum_erase_add _ g (Finset.mem_univ k),
    hrest]
  exact Nat.add_right_comm _ _ _

end NostrSearch.Lib
