import NostrSearch.Indexer.Targets

/-!
# The share the cut covers

What `top_by_usage_weight` is asked for: the shortest front of the ranking that carries its share of
all advertisements and is as long as the floor. It counts advertisements against a share that has
been rounded down, and so it may stop just short: that is where a long enough front weighs no less
than the rounded share and less than the share (`RoundedShort`), and nowhere else
(`covers_minimally_iff`).
-/

namespace NostrSearch.Indexer

open NostrSearch.Lib

/-- The advertisements of a list of relays. -/
def weightOf (targets : List (List Char × RelayInfo)) : ℕ :=
  (targets.map fun t => t.2.sources).sum

/-- The relays that may be kept in their order: more sources first, and then by URL. -/
structure IsRanking (targets ranking : List (List Char × RelayInfo)) : Prop where
  perm : ranking.Perm (retained targets)
  sorted : ranking.Pairwise fun x y => RanksBelow y x

/-- A front of the ranking with so many percent of its weight, which is as long as the floor, or
as all of it. -/
def Covers (ranking : List (List Char × RelayInfo)) (percentile minKeep : ℕ)
    (front : List (List Char × RelayInfo)) : Prop :=
  percentile * weightOf ranking ≤ weightOf front * 100 ∧
    min (max minKeep 1) ranking.length ≤ front.length

/-- The shortest such front. -/
def CoversMinimally (ranking : List (List Char × RelayInfo)) (percentile minKeep : ℕ)
    (kept : List (List Char × RelayInfo)) : Prop :=
  kept <+: ranking ∧ Covers ranking percentile minKeep kept ∧
    ∀ shorter, shorter <+: ranking → shorter.length < kept.length →
      ¬ Covers ranking percentile minKeep shorter

/-- A front that is long enough carries the share once it is rounded down, but not the share. -/
def RoundedShort (ranking : List (List Char × RelayInfo)) (percentile minKeep : ℕ) : Prop :=
  ∃ front, front <+: ranking ∧ min (max minKeep 1) ranking.length ≤ front.length ∧
    satMul (weightOf ranking) percentile / 100 ≤ weightOf front ∧
    weightOf front * 100 < percentile * weightOf ranking

/-! ## The ranking -/

section ranking

variable {targets ranking : List (List Char × RelayInfo)}

/-- Two relays with two URLs are in an order. -/
theorem ranksBelow_of_key_lt {x y : List Char × RelayInfo} (h : rankKey y < rankKey x) :
    RanksBelow x y := by
  rw [rankKey, rankKey, Prod.Lex.toLex_lt_toLex] at h
  rcases h with hlt | ⟨heq, hlt⟩
  · exact Or.inl hlt
  · exact Or.inr ⟨(OrderDual.toDual.injective heq).symm, hlt⟩

/-- There is no other ranking than the sorted list. -/
theorem IsRanking.eq_insertionSort (h : IsRanking targets ranking) :
    (retained targets).insertionSort (fun a b => rankKey a ≤ rankKey b) = ranking := by
  have hperm := (List.perm_insertionSort (fun a b => rankKey a ≤ rankKey b) (retained targets)).trans
    h.perm.symm
  -- no two of its relays have one key
  have hnodup : (ranking.map rankKey).Nodup :=
    List.pairwise_map.mpr (h.sorted.imp fun hlt => hlt.key_lt.ne)
  refine hperm.eq_of_pairwise ?_ (pairwise_insertionSort_key rankKey (retained targets))
    (h.sorted.imp fun hlt => hlt.key_lt.le)
  intro a b ha hb hab hba
  exact List.inj_on_of_nodup_map hnodup (hperm.subset ha) hb (le_antisymm hab hba)

/-- Relays with distinct URLs have a ranking. -/
theorem exists_isRanking (hurls : (urlsOf targets).Nodup) : ∃ ranking, IsRanking targets ranking := by
  have hperm := List.perm_insertionSort (fun a b => rankKey a ≤ rankKey b) (retained targets)
  have hsorted := pairwise_insertionSort_key rankKey (retained targets)
  have hdistinct : (urlsOf ((retained targets).insertionSort
      fun a b => rankKey a ≤ rankKey b)).Nodup := by
    rw [urlsOf, (hperm.map Prod.fst).nodup_iff]
    exact (List.filter_sublist.map Prod.fst).nodup hurls
  refine ⟨_, hperm, (hsorted.and (List.pairwise_map.mp hdistinct)).imp ?_⟩
  rintro x y ⟨hle, hne⟩
  refine ranksBelow_of_key_lt (lt_of_le_of_ne hle fun heq => hne ?_)
  exact congrArg (fun k : ℕᵒᵈ ×ₗ List Char => (ofLex k).2) heq

theorem IsRanking.weightOf_eq (h : IsRanking targets ranking) :
    weightOf ranking = totalSources targets :=
  (h.perm.map _).sum_eq

end ranking

/-! ## The cut -/

section share

variable {targets ranking front : List (List Char × RelayInfo)} {percentile minKeep : ℕ}

theorem weightOf_mono {m n : ℕ} (h : m ≤ n) :
    weightOf (ranking.take m) ≤ weightOf (ranking.take n) := by
  have hpre : ranking.take m <+: ranking.take n := List.take_prefix_take_left h
  exact (hpre.sublist.map _).sum_le_sum fun _ _ => Nat.zero_le _

/-- How long the front is that is kept. -/
def keptLength (ranking : List (List Char × RelayInfo)) (percentile minKeep : ℕ) : ℕ :=
  max (cover (fun t => t.2.sources) (satMul (weightOf ranking) percentile / 100) 0 ranking)
    (min (max minKeep 1) ranking.length)

theorem IsRanking.top_eq (h : IsRanking targets ranking) (hpercent : percentile < 100)
    (hweight : 0 < weightOf ranking) :
    topByUsageWeight targets percentile minKeep =
      ranking.take (keptLength ranking percentile minKeep) := by
  have hne : retained targets ≠ [] := by
    rintro hnil
    rw [h.weightOf_eq, totalSources, hnil] at hweight
    exact Nat.lt_irrefl 0 hweight
  unfold topByUsageWeight
  dsimp only
  rw [if_neg (not_or.mpr ⟨Nat.not_le.mpr hpercent, hne⟩), h.eq_insertionSort, ← weightOf,
    if_neg hweight.ne', keepLoop_eq, Nat.zero_add, keptLength, List.take_eq_take_iff]
  have hle := @cover_le_length _ (fun t : List Char × RelayInfo => t.2.sources)
    (satMul (weightOf ranking) percentile / 100) 0 ranking
  omega

/-- What is kept carries the rounded share. -/
theorem le_weightOf_kept (hpercent : percentile < 100) :
    satMul (weightOf ranking) percentile / 100 ≤
      weightOf (ranking.take (keptLength ranking percentile minKeep)) := by
  have hall : satMul (weightOf ranking) percentile / 100 ≤ 0 + weightOf ranking := by
    have hmul : satMul (weightOf ranking) percentile ≤ weightOf ranking * 100 :=
      (min_le_left _ _).trans (Nat.mul_le_mul_left _ hpercent.le)
    omega
  have hcover := le_take_cover hall
  rw [Nat.zero_add] at hcover
  exact hcover.trans (weightOf_mono (le_max_left _ _))

/-- Nothing shorter that is long enough does. -/
theorem keptLength_le (hweight : 0 < weightOf ranking) (hfront : front <+: ranking)
    (hfloor : min (max minKeep 1) ranking.length ≤ front.length)
    (hshare : satMul (weightOf ranking) percentile / 100 ≤ weightOf front) :
    keptLength ranking percentile minKeep ≤ front.length := by
  have hlength : 0 < ranking.length := by
    refine List.length_pos_iff.mpr ?_
    rintro rfl
    exact Nat.lt_irrefl 0 hweight
  refine max_le (cover_le_of_le (by omega) ?_) hfloor
  rwa [Nat.zero_add, ← List.prefix_iff_eq_take.mp hfront, ← weightOf]

/-- Whoever carries the share carries it rounded down. -/
theorem rounded_le {weight : ℕ} (h : percentile * weightOf ranking ≤ weight * 100) :
    satMul (weightOf ranking) percentile / 100 ≤ weight := by
  have hmul : satMul (weightOf ranking) percentile ≤ weight * 100 :=
    (min_le_left _ _).trans (Nat.mul_comm _ _ ▸ h)
  omega

/-- **When the cut covers its share.** -/
theorem covers_minimally_iff (h : IsRanking targets ranking) (hpercent : percentile < 100)
    (hweight : 0 < weightOf ranking) :
    CoversMinimally ranking percentile minKeep (topByUsageWeight targets percentile minKeep) ↔
      ¬ RoundedShort ranking percentile minKeep := by
  rw [h.top_eq hpercent hweight]
  have hcover_le := @cover_le_length _ (fun t : List Char × RelayInfo => t.2.sources)
    (satMul (weightOf ranking) percentile / 100) 0 ranking
  have hlength : (ranking.take (keptLength ranking percentile minKeep)).length =
      keptLength ranking percentile minKeep := by
    rw [List.length_take, keptLength]
    omega
  have hfloor : min (max minKeep 1) ranking.length ≤ keptLength ranking percentile minKeep :=
    le_max_right _ _
  have hrounded := @le_weightOf_kept ranking percentile minKeep hpercent
  constructor
  · rintro ⟨-, ⟨hshare, -⟩, -⟩ ⟨front, hfront, hlong, henough, hshort⟩
    -- the front is no shorter than what is kept, and so it carries the share
    have hle := keptLength_le hweight hfront hlong henough
    have hmono := @weightOf_mono ranking _ _ hle
    rw [← List.prefix_iff_eq_take.mp hfront] at hmono
    omega
  · intro hnot
    refine ⟨List.take_prefix _ _, ⟨?_, hfloor.trans_eq hlength.symm⟩, ?_⟩
    · by_contra hshort
      exact hnot ⟨_, List.take_prefix _ _, hfloor.trans_eq hlength.symm, hrounded,
        Nat.not_le.mp hshort⟩
    · rintro shorter hpre hlt ⟨hshare, hlong⟩
      rw [hlength] at hlt
      have hle := keptLength_le hweight hpre hlong (rounded_le hshare)
      omega

end share

/-! ## Three relays of one source -/

/-- Three relays with one source each. -/
def evenThree : List (List Char × RelayInfo) :=
  [advertised "wss://a" 1, advertised "wss://b" 1, advertised "wss://c" 1]

theorem even_three_ranking : IsRanking evenThree evenThree where
  perm := List.Perm.refl _
  sorted := by
    unfold RanksBelow
    decide

theorem even_three_covered : CoversMinimally evenThree 50 1 (topByUsageWeight evenThree 50 1) ↔
    ¬ RoundedShort evenThree 50 1 :=
  covers_minimally_iff even_three_ranking (by decide) (by decide)

/-- A third of the weight is kept where one half is asked for. -/
theorem even_three_short :
    (urlsOf evenThree).Nodup ∧ IsRanking evenThree evenThree ∧ 0 < weightOf evenThree ∧
      ¬ CoversMinimally evenThree 50 1 (topByUsageWeight evenThree 50 1) := by
  refine ⟨by decide, even_three_ranking, by decide, ?_⟩
  rintro ⟨-, ⟨hshare, -⟩, -⟩
  exact absurd hshare (by decide)

end NostrSearch.Indexer
