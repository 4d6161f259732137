import Mathlib.Data.List.Sort
import Mathlib.Tactic

/-!
# The largest so many

`TopBy key k xs page` says that `page` holds the `k` elements of `xs` with the largest keys, in any
order, with elements tied at the smallest of these keys left out as it pleases. What does not
depend on the ties is the smallest key on the page, `lastKey`: everything above it is on the page,
and the page is all of `xs` when `xs` has no more than `k` elements.

`FirstBy r k all page` is for pages that are in order: `page` is the first `k` elements of `all`,
sorted by `r`. When `all` comes in pools and each of them is cut to `k` elements by an order of its
own before they are merged, the page is right if and only if what the cuts left out was not needed.
-/

namespace NostrSearch.Lib

variable {α κ : Type*} [LinearOrder κ] {key : α → κ} {k : ℕ} {xs page : List α}

/-- `page` holds `k` elements of `xs` with the largest keys, or all of `xs`. -/
structure TopBy (key : α → κ) (k : ℕ) (xs page : List α) : Prop where
  subset : page ⊆ xs
  nodup : page.Nodup
  length_eq : page.length = min k xs.length
  le_of_notMem : ∀ e ∈ page, ∀ x ∈ xs, x ∉ page → key x ≤ key e

namespace TopBy

/-- What has a larger key than something on the page is on it. -/
theorem mem_of_lt (h : TopBy key k xs page) {e x : α} (he : e ∈ page) (hx : x ∈ xs)
    (hlt : key e < key x) : x ∈ page := by
  by_contra hpage
  exact absurd (h.le_of_notMem e he x hx hpage) (not_le.mpr hlt)

/-- A page that holds as many elements as there are holds them all. -/
theorem subset_of_length (h : TopBy key k xs page) (hlen : xs.length ≤ page.length) :
    xs ⊆ page := by
  have hperm : page.Perm xs := (h.nodup.subperm h.subset).perm_of_length_le hlen
  exact hperm.symm.subset

theorem subset_of_le (h : TopBy key k xs page) (hle : xs.length ≤ k) : xs ⊆ page :=
  h.subset_of_length (by rw [h.length_eq]; omega)

/-- A page shorter than the list it is taken from leaves something out. -/
theorem exists_notMem (h : TopBy key k xs page) (hxs : xs.Nodup) (hlt : k < xs.length) :
    ∃ x ∈ xs, x ∉ page := by
  by_contra hall
  push Not at hall
  have hle : xs.length ≤ page.length := (hxs.subperm hall).length_le
  have hlen : page.length = min k xs.length := h.length_eq
  omega

theorem eq_nil (h : TopBy key k xs []) (hk : 0 < k) : xs = [] := by
  have hlen : 0 = min k xs.length := h.length_eq
  exact List.eq_nil_of_length_eq_zero (by omega)

/-- The first elements of what is sorted by falling keys. -/
theorem take_of_sorted {sorted : List α} (hxs : xs.Nodup) (hperm : sorted.Perm xs)
    (hsorted : sorted.Pairwise fun a b => key b ≤ key a) : TopBy key k xs (sorted.take k) := by
  refine ⟨?_, ?_, ?_, ?_⟩
  · intro e he
    exact hperm.subset (List.take_subset k sorted he)
  · exact (hperm.nodup_iff.mpr hxs).sublist (List.take_sublist k sorted)
  · rw [List.length_take, hperm.length_eq]
  · intro e he x hx hout
    have hsplit : sorted.take k ++ sorted.drop k = sorted := List.take_append_drop k sorted
    have hdrop : x ∈ sorted.drop k := by
      have hmem : x ∈ sorted.take k ++ sorted.drop k := by
        rw [hsplit]
        exact hperm.symm.subset hx
      exact (List.mem_append.mp hmem).resolve_left hout
    rw [← hsplit, List.pairwise_append] at hsorted
    exact hsorted.2.2 e he x hdrop

theorem of_sorted (hxs : xs.Nodup) :
    TopBy key k xs ((xs.insertionSort fun a b => key b ≤ key a).take k) := by
  have htotal : Std.Total fun a b : α => key b ≤ key a := ⟨fun a b => le_total (key b) (key a)⟩
  have htrans : IsTrans α fun a b : α => key b ≤ key a :=
    ⟨fun _ _ _ hab hbc => le_trans hbc hab⟩
  exact take_of_sorted hxs (List.perm_insertionSort _ xs) (List.pairwise_insertionSort _ xs)

end TopBy

/-! ## The smallest key of a page -/

/-- Whether the `k` largest keys of `xs` stop at `v`. -/
def StopsAt (key : α → κ) (k : ℕ) (xs : List α) (v : κ) : Prop :=
  (xs.filter fun x => decide (v < key x)).length < min k xs.length ∧
    min k xs.length ≤ (xs.filter fun x => decide (v ≤ key x)).length

instance (key : α → κ) (k : ℕ) (xs : List α) : DecidablePred (StopsAt key k xs) := fun _ =>
  inferInstanceAs (Decidable (_ ∧ _))

/-- The smallest of the `k` largest keys of `xs`. -/
def lastKey (key : α → κ) (k : ℕ) (xs : List α) : Option κ :=
  (xs.map key).find? fun v => decide (StopsAt key k xs v)

/-- The keys stop at one value only. -/
theorem StopsAt.unique {v w : κ} (hv : StopsAt key k xs v) (hw : StopsAt key k xs w) : v = w := by
  have hle : ∀ {a b : κ}, a < b → (xs.filter fun x => decide (b ≤ key x)).length ≤
      (xs.filter fun x => decide (a < key x)).length := by
    intro a b hab
    apply List.Sublist.length_le
    apply List.monotone_filter_right
    intro x hx
    exact decide_eq_true (lt_of_lt_of_le hab (of_decide_eq_true hx))
  rcases lt_trichotomy v w with hlt | heq | hgt
  · have hcount := hle hlt
    have hv1 := hv.1
    have hw2 := hw.2
    omega
  · exact heq
  · have hcount := hle hgt
    have hw1 := hw.1
    have hv2 := hv.2
    omega

/-- The smallest key on a page is the one the largest keys stop at. -/
theorem TopBy.stopsAt (h : TopBy key k xs page) (hxs : xs.Nodup) {v : κ}
    (hv : (page.map key).min? = some v) : StopsAt key k xs v := by
  obtain ⟨hmem, hmin⟩ := List.min?_eq_some_iff.mp hv
  obtain ⟨e, he, rfl⟩ := List.mem_map.mp hmem
  have hle : ∀ x ∈ page, key e ≤ key x := fun x hx => hmin (key x) (List.mem_map_of_mem hx)
  rw [StopsAt, ← h.length_eq]
  constructor
  · -- what is above the smallest key is on the page, and `e` is there besides
    have hnodup : (e :: xs.filter fun x => decide (key e < key x)).Nodup := by
      rw [List.nodup_cons, List.mem_filter]
      exact ⟨fun hmem => absurd (of_decide_eq_true hmem.2) (lt_irrefl (key e)), hxs.filter _⟩
    have hsub : e :: xs.filter (fun x => decide (key e < key x)) ⊆ page := by
      intro x hx
      rcases List.mem_cons.mp hx with rfl | hx
      · exact he
      · rw [List.mem_filter] at hx
        exact h.mem_of_lt he hx.1 (of_decide_eq_true hx.2)
    have hlen := (hnodup.subperm hsub).length_le
    rw [List.length_cons] at hlen
    omega
  · have hsub : page ⊆ xs.filter fun x => decide (key e ≤ key x) := by
      intro x hx
      exact List.mem_filter.mpr ⟨h.subset hx, decide_eq_true (hle x hx)⟩
    exact (h.nodup.subperm hsub).length_le

/-- The smallest key on a page does not depend on which of the tied elements are on it. -/
theorem TopBy.lastKey_eq (h : TopBy key k xs page) (hxs : xs.Nodup) :
    lastKey key k xs = (page.map key).min? := by
  cases hv : (page.map key).min? with
  | none =>
    have hnil : page = [] := by
      rw [List.min?_eq_none_iff, List.map_eq_nil_iff] at hv
      exact hv
    have hlen : page.length = min k xs.length := h.length_eq
    rw [hnil, List.length_nil] at hlen
    rw [lastKey, List.find?_eq_none]
    intro v _ hstop
    have hlt := (of_decide_eq_true hstop).1
    omega
  | some v =>
    have hstop := h.stopsAt hxs hv
    obtain ⟨e, he, hev⟩ := List.mem_map.mp (List.min?_eq_some_iff.mp hv).1
    cases hfind : lastKey key k xs with
    | none =>
      rw [lastKey, List.find?_eq_none] at hfind
      exact absurd (decide_eq_true hstop) (hfind v (hev ▸ List.mem_map_of_mem (h.subset he)))
    | some w =>
      unfold lastKey at hfind
      have hw : StopsAt key k xs w := by simpa using List.find?_some hfind
      rw [hw.unique hstop]

/-! ## Pages in order -/

variable {r : α → α → Prop} {all kept dropped : List α}

/-- `page` is the first `k` elements of `all` in an order by `r`, elements that `r` does not tell
apart in any order. -/
def FirstBy (r : α → α → Prop) (k : ℕ) (all page : List α) : Prop :=
  ∃ sorted : List α, sorted.Perm all ∧ sorted.Pairwise r ∧ page = sorted.take k

/-- A list no longer than the page is on it, whatever it is sorted by. -/
theorem perm_take_insertionSort (r : α → α → Prop) [DecidableRel r] (h : xs.length ≤ k) :
    ((xs.insertionSort r).take k).Perm xs := by
  have hperm := List.perm_insertionSort r xs
  rwa [List.take_of_length_le (by rw [hperm.length_eq]; exact h)]

section
variable [DecidableRel r]

/-- What a sorted list has at most as late as `z` is its beginning. -/
theorem rel_of_countP [IsTrans α r] {sorted : List α} (hsorted : sorted.Pairwise r)
    (hrefl : ∀ x, r x x) {z y : α} (hz : k ≤ sorted.countP fun w => decide (r w z))
    (hy : y ∈ sorted.take k) : r y z := by
  by_contra hyz
  obtain ⟨i, hi, rfl⟩ := List.getElem_of_mem hy
  rw [List.length_take] at hi
  rw [List.getElem_take] at hyz
  have hilen : i < sorted.length := by omega
  have hsplit : sorted.take i ++ sorted.drop i = sorted := List.take_append_drop i sorted
  -- nothing from `i` on is as early as `z`
  have hnone : (sorted.drop i).countP (fun w => decide (r w z)) = 0 := by
    rw [List.countP_eq_zero]
    intro w hw hwz
    have hdrop := List.drop_eq_getElem_cons hilen
    rw [← hsplit, List.pairwise_append] at hsorted
    have htail := hsorted.2.1
    rw [hdrop] at htail hw
    have hiw : r sorted[i] w := by
      rcases List.mem_cons.mp hw with rfl | hw
      · exact hrefl _
      · exact List.rel_of_pairwise_cons htail hw
    exact hyz (IsTrans.trans _ _ _ hiw (of_decide_eq_true hwz))
  have hle := List.countP_le_length (p := fun w => decide (r w z)) (l := sorted.take i)
  rw [← hsplit, List.countP_append, hnone] at hz
  rw [List.length_take] at hle
  omega

/-- If the first `k` kept are the first `k` of all, what was dropped comes after them. -/
theorem countP_of_firstBy {ys : List α} (hall : all.Perm (kept ++ dropped)) (hsort : ys.Perm kept)
    (hpage : FirstBy r k all (ys.take k)) {x : α} (hx : x ∈ dropped) (hk : k ≤ kept.length) :
    k ≤ kept.countP fun y => decide (r y x) := by
  obtain ⟨sorted, hperm, hsorted, heq⟩ := hpage
  have hys : ys.take k ++ ys.drop k = ys := List.take_append_drop k ys
  -- what is behind the page has everything that was dropped
  have hrest : (sorted.drop k).Perm (ys.drop k ++ dropped) := by
    have h : (ys.take k ++ sorted.drop k).Perm (ys.take k ++ (ys.drop k ++ dropped)) := by
      rw [heq, List.take_append_drop, ← heq, ← List.append_assoc, hys]
      exact hperm.trans (hall.trans (hsort.symm.append_right _))
    exact (List.perm_append_left_iff _).mp h
  have hxrest : x ∈ sorted.drop k := hrest.symm.subset (List.mem_append_right _ hx)
  rw [← List.take_append_drop k sorted, ← heq, List.pairwise_append] at hsorted
  have hcount : (ys.take k).countP (fun y => decide (r y x)) = (ys.take k).length :=
    List.countP_eq_length.mpr fun y hy => decide_eq_true (hsorted.2.2 y hy x hxrest)
  have hle : (ys.take k).countP (fun y => decide (r y x)) ≤ ys.countP fun y => decide (r y x) :=
    (List.take_sublist k ys).countP_le
  rw [hsort.countP_eq] at hle
  rw [hcount, List.length_take, hsort.length_eq] at hle
  omega

/-- **Cut and merged.** Of `all`, some elements were dropped, none unless `k` were kept. The first
`k` of those kept are the first `k` of all if and only if for each one dropped there are `k` kept
that are not later. -/
theorem firstBy_iff [Std.Total r] [IsTrans α r] (hall : all.Perm (kept ++ dropped))
    (hlen : dropped ≠ [] → k ≤ kept.length) (hxs : xs.Perm kept) :
    FirstBy r k all ((xs.insertionSort r).take k) ↔
      ∀ x ∈ dropped, k ≤ kept.countP fun y => decide (r y x) := by
  have hrefl : ∀ x, r x x := fun x => (Std.Total.total (r := r) x x).elim id id
  have hsort : (xs.insertionSort r).Perm kept := (List.perm_insertionSort r xs).trans hxs
  have hpair : (xs.insertionSort r).Pairwise r := List.pairwise_insertionSort r xs
  set ys := xs.insertionSort r
  have hys : ys.take k ++ ys.drop k = ys := List.take_append_drop k ys
  constructor
  · exact fun hpage x hx => countP_of_firstBy hall hsort hpage hx (hlen (List.ne_nil_of_mem hx))
  · -- the page, and then the rest of those kept with those dropped, is all in order
    intro h
    refine ⟨ys.take k ++ (ys.drop k ++ dropped).insertionSort r, ?_, ?_, ?_⟩
    · have htail := (List.perm_insertionSort r (ys.drop k ++ dropped)).append_left (ys.take k)
      rw [← List.append_assoc, hys] at htail
      exact htail.trans ((hsort.append_right _).trans hall.symm)
    · rw [List.pairwise_append]
      refine ⟨hpair.sublist (List.take_sublist k ys), List.pairwise_insertionSort r _, ?_⟩
      intro y hy z hz
      rcases List.mem_append.mp ((List.perm_insertionSort r _).subset hz) with hz | hz
      · rw [← hys, List.pairwise_append] at hpair
        exact hpair.2.2 y hy z hz
      · exact rel_of_countP hpair hrefl ((h z hz).trans (hsort.countP_eq _).ge) hy
    · by_cases hd : dropped = []
      · by_cases hk : k ≤ ys.length
        · rw [List.take_left' (by rw [List.length_take]; omega)]
        · have hle : ys.length ≤ k := by omega
          rw [hd, List.append_nil, List.drop_of_length_le hle, List.insertionSort_nil,
            List.append_nil, List.take_take, min_self]
      · have hk : k ≤ ys.length := hsort.length_eq ▸ hlen hd
        rw [List.take_left' (by rw [List.length_take]; omega)]

/-- **Who is on the page.** Where elements that come in either order are both wanted or neither, one
that is wanted is on the page if and only if fewer than `k` unwanted ones are not later than some
wanted one. -/
theorem exists_mem_page_iff [Std.Total r] [IsTrans α r] {want : α → Prop} [DecidablePred want]
    (hties : ∀ x ∈ xs, ∀ y ∈ xs, r x y → r y x → (want x ↔ want y)) :
    (∃ x ∈ (xs.insertionSort r).take k, want x) ↔
      ∃ x ∈ xs, want x ∧ xs.countP (fun y => decide (r y x ∧ ¬ want y)) < k := by
  have hperm := List.perm_insertionSort r xs
  have hpair : (xs.insertionSort r).Pairwise r := List.pairwise_insertionSort r xs
  simp only [← hperm.countP_eq, ← hperm.mem_iff] at hties ⊢
  generalize xs.insertionSort r = sorted at hpair hties ⊢
  constructor
  · rintro ⟨x, hx, hwant⟩
    refine ⟨x, List.mem_of_mem_take hx, hwant, ?_⟩
    obtain ⟨a, b, hpage⟩ := List.append_of_mem hx
    obtain ⟨c, hc⟩ := List.take_prefix k sorted
    rw [hpage, List.append_assoc, List.cons_append] at hc
    -- what comes behind it and is not later is as good
    have hbehind : (b ++ c).countP (fun y => decide (r y x ∧ ¬ want y)) = 0 := by
      rw [List.countP_eq_zero]
      intro y hy hnot
      obtain ⟨hyx, hno⟩ := of_decide_eq_true hnot
      rw [← hc] at hpair hties
      have hxy := List.rel_of_pairwise_cons (List.pairwise_append.mp hpair).2.1 hy
      have hmem := List.mem_append_right a (List.mem_cons_of_mem x hy)
      exact hno ((hties x (by simp) y hmem hxy hyx).mp hwant)
    have hlength : (a ++ x :: b).length ≤ k := hpage ▸ List.length_take_le k sorted
    rw [List.length_append, List.length_cons] at hlength
    have hbefore := List.countP_le_length (p := fun y => decide (r y x ∧ ¬ want y)) (l := a)
    rw [← hc, List.countP_append, List.countP_cons, hbehind]
    simp only [hwant, not_true_eq_false, and_false, decide_false, Bool.false_eq_true, if_false]
    omega
  · rintro ⟨x, hx, hwant, hcount⟩
    by_contra hnone
    push Not at hnone
    have hdrop : x ∈ sorted.drop k := by
      rw [← List.take_append_drop k sorted] at hx
      exact (List.mem_append.mp hx).resolve_left fun h => hnone x h hwant
    have hpage : ∀ y ∈ sorted.take k, decide (r y x ∧ ¬ want y) = true := by
      intro y hy
      rw [← List.take_append_drop k sorted, List.pairwise_append] at hpair
      exact decide_eq_true ⟨hpair.2.2 y hy x hdrop, hnone y hy⟩
    have hle := (List.take_sublist k sorted).countP_le (p := fun y => decide (r y x ∧ ¬ want y))
    have hpos := List.length_pos_of_mem hdrop
    rw [List.countP_eq_length.mpr hpage, List.length_take] at hle
    rw [List.length_drop] at hpos
    omega

end

/-- Pools cut to `k` elements each. -/
theorem perm_cut (cut : List α → List α) (hcut : ∀ pool, (cut pool).Perm pool)
    (pools : List (List α)) :
    pools.flatten.Perm (pools.flatMap (fun pool => (cut pool).take k) ++
      pools.flatMap fun pool => (cut pool).drop k) := by
  induction pools with
  | nil => exact List.Perm.refl _
  | cons pool pools ih =>
    rw [List.flatten_cons, List.flatMap_cons, List.flatMap_cons]
    have hpool : pool.Perm ((cut pool).take k ++ (cut pool).drop k) := by
      rw [List.take_append_drop]
      exact (hcut pool).symm
    have h := hpool.append ih
    refine h.trans ?_
    simp only [List.append_assoc]
    exact (List.perm_append_comm_assoc _ _ _).append_left _

/-- Something is dropped only from a pool that fills the page. -/
theorem length_cut {cut : List α → List α} {pools : List (List α)}
    (h : (pools.flatMap fun pool => (cut pool).drop k) ≠ []) :
    k ≤ (pools.flatMap fun pool => (cut pool).take k).length := by
  obtain ⟨x, hx⟩ := List.exists_mem_of_ne_nil _ h
  obtain ⟨pool, hpool, hx⟩ := List.mem_flatMap.mp hx
  have hlen : 0 < ((cut pool).drop k).length := List.length_pos_of_mem hx
  rw [List.length_drop] at hlen
  have hmem : (cut pool).take k ∈ pools.map fun pool => (cut pool).take k :=
    List.mem_map_of_mem hpool
  have hle := (List.sublist_flatten_of_mem hmem).length_le
  rw [List.length_take, ← List.flatMap_def] at hle
  omega

/-- **Cut and merged by one order**, nothing is lost: what a pool drops comes after the `k` it
keeps. -/
theorem firstBy_cut [DecidableRel r] [Std.Total r] [IsTrans α r] {pools : List (List α)}
    (hxs : xs.Perm (pools.flatMap fun pool => (pool.insertionSort r).take k)) :
    FirstBy r k pools.flatten ((xs.insertionSort r).take k) := by
  have hcut := perm_cut (k := k) (fun pool => pool.insertionSort r)
    (fun pool => List.perm_insertionSort r pool) pools
  rw [firstBy_iff hcut length_cut hxs]
  intro x hx
  obtain ⟨pool, hpool, hx⟩ := List.mem_flatMap.mp hx
  have hpair := List.pairwise_insertionSort r pool
  rw [← List.take_append_drop k (pool.insertionSort r), List.pairwise_append] at hpair
  have hlen : 0 < ((pool.insertionSort r).drop k).length := List.length_pos_of_mem hx
  rw [List.length_drop] at hlen
  have hown : ((pool.insertionSort r).take k).countP (fun y => decide (r y x)) = k := by
    rw [List.countP_eq_length.mpr fun y hy => decide_eq_true (hpair.2.2 y hy x hx),
      List.length_take]
    omega
  have hsub : ((pool.insertionSort r).take k).Sublist
      (pools.flatMap fun pool => (pool.insertionSort r).take k) := by
    rw [List.flatMap_def]
    exact List.sublist_flatten_of_mem (List.mem_map_of_mem hpool)
  exact hown.ge.trans hsub.countP_le

end NostrSearch.Lib
