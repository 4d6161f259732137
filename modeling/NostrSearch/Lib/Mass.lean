import Mathlib.Algebra.BigOperators.Group.List.Basic
import Mathlib.Algebra.Order.Field.Basic
import Mathlib.Tactic

/-!
# Handing mass on

A distribution over the nodes `0 .. n` of a graph, as a list. In one step each node hands a part of
what it has to its successors, in equal shares, and the rest is spread over all nodes, as is the
part of those that have no successor. `out` says what the successors are, a node as often as it
gets a share.

`Distribution.step` says that this is a distribution again, and `distribution_walk` that it is after
any number of steps.
-/

namespace NostrSearch.Lib

variable {K : Type*} [Field K]

def addAt (v : List K) (i : ℕ) (x : K) : List K := v.modify i fun y => y + x

/-- A share for each of the nodes. -/
def addShares (v : List K) (cells : List ℕ) (x : K) : List K :=
  cells.foldl (fun v i => addAt v i x) v

/-- What a node hands on: shares to its successors, or all it has to everybody. -/
def handOn (damping : K) (out : ℕ → List ℕ) (rank : List K) (acc : List K × K) (a : ℕ) :
    List K × K :=
  if (out a).length = 0 then (acc.1, acc.2 + rank.getD a 0)
  else (addShares acc.1 (out a) (damping * rank.getD a 0 / (out a).length), acc.2)

def walkStep (damping : K) (n : ℕ) (out : ℕ → List ℕ) (rank : List K) : List K :=
  let r := (List.range n).foldl (handOn damping out rank)
    (List.replicate n ((1 - damping) / n), 0)
  r.1.map fun v => v + damping * r.2 / n

/-- So many steps, from the uniform distribution. -/
def walk (damping : K) (n : ℕ) (out : ℕ → List ℕ) : ℕ → List K
  | 0 => List.replicate n (1 / n)
  | k + 1 => walkStep damping n out (walk damping n out k)

section Shares

variable {v : List K} {cells : List ℕ} {i : ℕ} {x : K}

@[simp] theorem length_addAt : (addAt v i x).length = v.length := List.length_modify ..

theorem sum_addAt (h : i < v.length) : (addAt v i x).sum = v.sum + x := by
  unfold addAt
  induction v generalizing i with
  | nil => cases h
  | cons y v ih =>
    cases i with
    | zero =>
      rw [List.modify_zero_cons, List.sum_cons, List.sum_cons]
      ring
    | succ i =>
      rw [List.modify_succ_cons, List.sum_cons, List.sum_cons, ih (by simpa using h)]
      ring

@[simp] theorem length_addShares : (addShares v cells x).length = v.length := by
  unfold addShares
  induction cells generalizing v with
  | nil => rfl
  | cons i cells ih => rw [List.foldl_cons, ih, length_addAt]

theorem sum_addShares (h : ∀ i ∈ cells, i < v.length) :
    (addShares v cells x).sum = v.sum + cells.length * x := by
  unfold addShares
  induction cells generalizing v with
  | nil => simp
  | cons i cells ih =>
    have hrest : ∀ j ∈ cells, j < (addAt v i x).length := by
      intro j hj
      rw [length_addAt]
      exact h j (List.mem_cons_of_mem i hj)
    rw [List.foldl_cons, ih hrest, sum_addAt (h i List.mem_cons_self), List.length_cons]
    push_cast
    ring

variable [LinearOrder K] [IsStrictOrderedRing K]

theorem nonneg_addAt (hv : ∀ y ∈ v, 0 ≤ y) (hx : 0 ≤ x) : ∀ y ∈ addAt v i x, 0 ≤ y := by
  intro y hy
  obtain ⟨j, hj, rfl⟩ := List.getElem_of_mem hy
  rw [length_addAt] at hj
  have hvj : 0 ≤ v[j] := hv _ (List.getElem_mem hj)
  simp only [addAt, List.getElem_modify]
  split
  · exact add_nonneg hvj hx
  · exact hvj

theorem nonneg_addShares (hv : ∀ y ∈ v, 0 ≤ y) (hx : 0 ≤ x) :
    ∀ y ∈ addShares v cells x, 0 ≤ y := by
  unfold addShares
  induction cells generalizing v with
  | nil => exact hv
  | cons i cells ih => exact ih (nonneg_addAt hv hx)

end Shares

/-! ## One step -/

section Step

variable {damping : K} {n : ℕ} {out : ℕ → List ℕ} {rank : List K}

/-- What the nodes hand on and what is kept for everybody, together. -/
theorem sum_foldl_handOn [CharZero K] (damping : K) (rank : List K)
    (hout : ∀ a < n, ∀ b ∈ out a, b < n) (as : List ℕ) (has : ∀ a ∈ as, a < n)
    (acc : List K × K) (hlen : acc.1.length = n) :
    (as.foldl (handOn damping out rank) acc).1.length = n ∧
      (as.foldl (handOn damping out rank) acc).1.sum +
          damping * (as.foldl (handOn damping out rank) acc).2 =
        acc.1.sum + damping * acc.2 + damping * (as.map fun a => rank.getD a 0).sum := by
  induction as generalizing acc with
  | nil => exact ⟨hlen, by simp⟩
  | cons a as ih =>
    have ha := has a List.mem_cons_self
    have hturn : (handOn damping out rank acc a).1.length = n ∧
        (handOn damping out rank acc a).1.sum + damping * (handOn damping out rank acc a).2 =
          acc.1.sum + damping * acc.2 + damping * rank.getD a 0 := by
      unfold handOn
      split
      case isTrue =>
        refine ⟨hlen, ?_⟩
        dsimp only
        ring
      case isFalse hne =>
        have hne' : ((out a).length : K) ≠ 0 := Nat.cast_ne_zero.mpr hne
        refine ⟨by rw [length_addShares, hlen], ?_⟩
        rw [sum_addShares fun b hb => hlen.symm ▸ hout a ha b hb, mul_div_cancel₀ _ hne']
        ring
    obtain ⟨hlength, hsum⟩ :=
      ih (fun b hb => has b (List.mem_cons_of_mem a hb)) _ hturn.1
    rw [List.foldl_cons]
    refine ⟨hlength, ?_⟩
    rw [hsum, hturn.2, List.map_cons, List.sum_cons]
    ring

/-- Adding the same to each. -/
theorem sum_map_add (v : List K) (c : K) : (v.map fun y => y + c).sum = v.sum + v.length * c := by
  induction v with
  | nil => simp
  | cons y v ih =>
    rw [List.map_cons, List.sum_cons, ih, List.sum_cons, List.length_cons]
    push_cast
    ring

theorem map_getD_range (v : List K) : (List.range v.length).map (fun a => v.getD a 0) = v := by
  apply List.ext_getElem
  · simp
  · intro i h h'
    simp [h']

variable [LinearOrder K] [IsStrictOrderedRing K]

theorem nonneg_foldl_handOn (out : ℕ → List ℕ) (hd : 0 ≤ damping)
    (hrank : ∀ y ∈ rank, 0 ≤ y) (as : List ℕ) (acc : List K × K)
    (hacc : ∀ y ∈ acc.1, 0 ≤ y) (hacc' : 0 ≤ acc.2) :
    (∀ y ∈ (as.foldl (handOn damping out rank) acc).1, 0 ≤ y) ∧
      0 ≤ (as.foldl (handOn damping out rank) acc).2 := by
  induction as generalizing acc with
  | nil => exact ⟨hacc, hacc'⟩
  | cons a as ih =>
    have ha : 0 ≤ rank.getD a 0 := by
      rw [List.getD_eq_getElem?_getD]
      cases hget : rank[a]? with
      | none => exact le_rfl
      | some y => exact hrank y (List.mem_of_getElem? hget)
    have hturn : (∀ y ∈ (handOn damping out rank acc a).1, 0 ≤ y) ∧
        0 ≤ (handOn damping out rank acc a).2 := by
      unfold handOn
      split
      · exact ⟨hacc, add_nonneg hacc' ha⟩
      · have hshare := div_nonneg (mul_nonneg hd ha) (Nat.cast_nonneg (out a).length)
        exact ⟨nonneg_addShares hacc hshare, hacc'⟩
    exact ih _ hturn.1 hturn.2

/-- Shares of all there is. -/
structure Distribution (n : ℕ) (v : List K) : Prop where
  length : v.length = n
  nonneg : ∀ y ∈ v, 0 ≤ y
  sum : v.sum = 1

theorem distribution_uniform (hn : 0 < n) :
    Distribution n (List.replicate n ((1 : K) / n)) := by
  have hne : (n : K) ≠ 0 := Nat.cast_ne_zero.mpr hn.ne'
  constructor
  · exact List.length_replicate
  · intro y hy
    rw [List.eq_of_mem_replicate hy]
    exact div_nonneg zero_le_one (Nat.cast_nonneg n)
  · rw [List.sum_replicate, nsmul_eq_mul, mul_div_cancel₀ _ hne]

/-- **One step** loses nothing and adds nothing. -/
theorem Distribution.step (h : Distribution n rank) (hn : 0 < n) (hd : 0 ≤ damping)
    (hd' : damping ≤ 1) (hout : ∀ a < n, ∀ b ∈ out a, b < n) :
    Distribution n (walkStep damping n out rank) := by
  have hne : (n : K) ≠ 0 := Nat.cast_ne_zero.mpr hn.ne'
  have hbase : 0 ≤ (1 - damping) / n := div_nonneg (sub_nonneg.mpr hd') (Nat.cast_nonneg n)
  obtain ⟨hlen, hsum⟩ := sum_foldl_handOn damping rank hout (List.range n)
    (fun a ha => List.mem_range.mp ha) (List.replicate n ((1 - damping) / n), 0)
    List.length_replicate
  obtain ⟨hnonneg, hrest⟩ := nonneg_foldl_handOn out hd h.nonneg (List.range n)
    (List.replicate n ((1 - damping) / n), 0)
    (fun y hy => List.eq_of_mem_replicate hy ▸ hbase) le_rfl
  have hmass : ((List.range n).map fun a => rank.getD a 0).sum = 1 := by
    rw [← h.length, map_getD_range, h.sum]
  constructor
  · rw [walkStep, List.length_map, hlen]
  · intro y hy
    rw [walkStep, List.mem_map] at hy
    obtain ⟨z, hz, rfl⟩ := hy
    exact add_nonneg (hnonneg z hz) (div_nonneg (mul_nonneg hd hrest) (Nat.cast_nonneg n))
  · rw [walkStep, sum_map_add, hlen, mul_div_cancel₀ _ hne, hsum, hmass, List.sum_replicate,
      nsmul_eq_mul, mul_div_cancel₀ _ hne]
    ring

/-- **Any number of steps.** -/
theorem distribution_walk (hn : 0 < n) (hd : 0 ≤ damping) (hd' : damping ≤ 1)
    (hout : ∀ a < n, ∀ b ∈ out a, b < n) (k : ℕ) : Distribution n (walk damping n out k) := by
  induction k with
  | zero => exact distribution_uniform hn
  | succ k ih => exact ih.step hn hd hd' hout

end Step

end NostrSearch.Lib
