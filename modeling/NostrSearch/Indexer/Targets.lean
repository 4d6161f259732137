import NostrSearch.Core.Num
import NostrSearch.Indexer.Scrape
import NostrSearch.Lib.WeightCut
import Mathlib.Data.Char
import Mathlib.Data.List.Lex
import Mathlib.Data.Prod.Lex

/-!
# The relays in scope

`top_by_usage_weight` and `scrape_targets`. Relays are ranked by the number of people who advertise
them, and the ranking is cut where it carries the wanted share of all advertisements; pinned relays
come on top. Whoever adds relays behind those that are kept moves the total and with it the cut, and
only ever further back: what was in the cut stays in it. A pinned relay from outside the cut is
there under its own URL as long as nothing in the cut has the same URL up to case and trailing
slashes, and then that one stands for it (`minted_evict_no_relay`).
-/

namespace NostrSearch.Indexer

open NostrSearch.Core NostrSearch.Lib

/-- `trim_end_matches('/')`, and `to_ascii_lowercase`. -/
def normUrl (u : List Char) : List Char :=
  asciiLower (u.reverse.dropWhile fun c => c = '/').reverse

/-- The ranking: more sources first, and then by URL. -/
def rankKey (t : List Char × RelayInfo) : ℕᵒᵈ ×ₗ List Char :=
  toLex (OrderDual.toDual t.2.sources, t.1)

/-- The loop of `top_by_usage_weight`. -/
def keepLoop (want acc keep : ℕ) : List (List Char × RelayInfo) → ℕ
  | [] => keep
  | (_, i) :: rest =>
    let acc := acc + i.sources
    let keep := keep + 1
    if want ≤ acc then keep else keepLoop want acc keep rest

/-- `saturating_mul` of `u64`. -/
def satMul (a b : ℕ) : ℕ := min (a * b) u64Max

/-- `targets.retain(..)`: what is not known to be no relay. -/
def retained (targets : List (List Char × RelayInfo)) : List (List Char × RelayInfo) :=
  targets.filter fun t => decide (t.2.nip11 ≠ some false)

/-- `top_by_usage_weight`. The total of fewer than `2 ^ 32` numbers of 32 bits is a `u64`. -/
def topByUsageWeight (targets : List (List Char × RelayInfo)) (percentile minKeep : ℕ) :
    List (List Char × RelayInfo) :=
  let targets := retained targets
  if 100 ≤ percentile ∨ targets = [] then targets
  else
    let targets := targets.insertionSort fun a b => rankKey a ≤ rankKey b
    let total := (targets.map fun t => t.2.sources).sum
    if total = 0 then targets
    else
      let want := satMul total percentile / 100
      targets.take (max (keepLoop want 0 0 targets) (max minKeep 1))

/-- `scrape_targets`. -/
def scrapeTargets (all : List (List Char × RelayInfo)) (percentile minKeep : ℕ)
    (pins : List (List Char)) : List (List Char × RelayInfo) :=
  let pins := pins.map normUrl
  let pinned := all.filter fun t => decide (normUrl t.1 ∈ pins ∧ t.2.nip11 ≠ some false)
  let kept := topByUsageWeight all percentile minKeep
  let haveUrls := kept.map fun t => normUrl t.1
  kept ++ pinned.filter fun t => decide (normUrl t.1 ∉ haveUrls)

/-! ## The cut -/

/-- The URLs of a list of relays. -/
def urlsOf (targets : List (List Char × RelayInfo)) : List (List Char) := targets.map Prod.fst

/-- Fewer sources, or as many and a later URL. -/
def RanksBelow (x y : List Char × RelayInfo) : Prop :=
  x.2.sources < y.2.sources ∨ x.2.sources = y.2.sources ∧ y.1 < x.1

/-- The weight of a relay, read off its place in the ranking. -/
def keyWeight (k : ℕᵒᵈ ×ₗ List Char) : ℕ := OrderDual.ofDual (ofLex k).1

/-- The sources of all relays that may be kept. -/
def totalSources (targets : List (List Char × RelayInfo)) : ℕ :=
  ((retained targets).map fun t => t.2.sources).sum

theorem RanksBelow.key_lt {x y : List Char × RelayInfo} (h : RanksBelow x y) :
    rankKey y < rankKey x := by
  rw [rankKey, rankKey, Prod.Lex.toLex_lt_toLex]
  rcases h with hlt | ⟨heq, hlt⟩
  · exact Or.inl hlt
  · exact Or.inr ⟨by rw [heq], hlt⟩

theorem keepLoop_eq (want acc keep : ℕ) (l : List (List Char × RelayInfo)) :
    keepLoop want acc keep l = keep + cover (fun t => t.2.sources) want acc l := by
  induction l generalizing acc keep with
  | nil => rfl
  | cons t rest ih =>
    rw [keepLoop, cover]
    split
    · rfl
    · rw [ih]
      omega

theorem satMul_mono {a a' : ℕ} (h : a ≤ a') (b : ℕ) : satMul a b ≤ satMul a' b :=
  min_le_min (Nat.mul_le_mul_right b h) le_rfl

section cut

variable {l l' new : List (List Char × RelayInfo)} {percentile minKeep : ℕ} {u : List Char}

theorem mem_retained {t : List Char × RelayInfo} :
    t ∈ retained l ↔ t ∈ l ∧ t.2.nip11 ≠ some false := by
  rw [retained, List.mem_filter, decide_eq_true_eq]

theorem retained_append : retained (l ++ new) = retained l ++ retained new :=
  List.filter_append _ _

theorem retained_perm (h : l.Perm l') : (retained l).Perm (retained l') := h.filter _

theorem totalSources_perm (h : l.Perm l') : totalSources l = totalSources l' :=
  ((retained_perm h).map _).sum_eq

theorem totalSources_le_append : totalSources l ≤ totalSources (l ++ new) := by
  rw [totalSources, totalSources, retained_append, List.map_append, List.sum_append]
  exact Nat.le_add_right _ _

/-- Nothing is cut off at 100 per cent, or as long as nothing is advertised. -/
theorem mem_top_of_all (h : 100 ≤ percentile ∨ totalSources l = 0) {t : List Char × RelayInfo} :
    t ∈ topByUsageWeight l percentile minKeep ↔ t ∈ retained l := by
  unfold topByUsageWeight
  dsimp only
  by_cases hall : 100 ≤ percentile ∨ retained l = []
  · rw [if_pos hall]
  · have htotal : (((retained l).insertionSort fun a b => rankKey a ≤ rankKey b).map
        fun t => t.2.sources).sum = 0 := by
      rw [((List.perm_insertionSort _ _).map _).sum_eq]
      exact h.resolve_left fun h100 => hall (Or.inl h100)
    rw [if_neg hall, if_pos htotal]
    exact List.mem_insertionSort _

/-- Otherwise the front of the ranking is kept. -/
theorem top_eq_heaviest (hpercent : ¬ 100 ≤ percentile) (htotal : totalSources l ≠ 0) :
    (topByUsageWeight l percentile minKeep).map rankKey =
      heaviest keyWeight (satMul (totalSources l) percentile / 100) (max minKeep 1)
        ((retained l).map rankKey) := by
  have hne : retained l ≠ [] := by
    intro hnil
    rw [totalSources, hnil] at htotal
    exact htotal rfl
  have hsum : (((retained l).insertionSort fun a b => rankKey a ≤ rankKey b).map
      fun t => t.2.sources).sum = totalSources l :=
    ((List.perm_insertionSort _ _).map _).sum_eq
  have hranked : ranked ((retained l).map rankKey) =
      ((retained l).insertionSort fun a b => rankKey a ≤ rankKey b).map rankKey := by
    apply ranked_eq
    · exact (List.perm_insertionSort _ _).map rankKey
    · rw [List.pairwise_map]
      exact pairwise_insertionSort_key rankKey (retained l)
  unfold topByUsageWeight
  dsimp only
  rw [if_neg (not_or.mpr ⟨hpercent, hne⟩), hsum, if_neg htotal, heaviest, hranked, cover_map,
    List.map_take, keepLoop_eq, Nat.zero_add]
  rfl

theorem mem_urls_iff_key {l : List (List Char × RelayInfo)} :
    u ∈ urlsOf l ↔ u ∈ (l.map rankKey).map fun k => (ofLex k).2 := by
  rw [List.map_map]
  rfl

/-- The order of the table does not matter. -/
theorem urls_top_perm (h : l.Perm l') :
    u ∈ urlsOf (topByUsageWeight l percentile minKeep) ↔
      u ∈ urlsOf (topByUsageWeight l' percentile minKeep) := by
  by_cases hall : 100 ≤ percentile ∨ totalSources l = 0
  · have hall' : 100 ≤ percentile ∨ totalSources l' = 0 := totalSources_perm h ▸ hall
    rw [urlsOf, urlsOf, List.mem_map, List.mem_map]
    simp only [mem_top_of_all hall, mem_top_of_all hall', (retained_perm h).mem_iff]
  · rw [not_or] at hall
    have htotal' : totalSources l' ≠ 0 := totalSources_perm h ▸ hall.2
    rw [mem_urls_iff_key, mem_urls_iff_key, top_eq_heaviest hall.1 hall.2,
      top_eq_heaviest hall.1 htotal', totalSources_perm h,
      heaviest_perm ((retained_perm h).map rankKey)]

/-- Relays behind all that is kept take nothing out of the cut. -/
theorem urls_top_append (hnew : ∀ x ∈ new, ∀ y ∈ topByUsageWeight l percentile minKeep,
    RanksBelow x y) (hu : u ∈ urlsOf (topByUsageWeight l percentile minKeep)) :
    u ∈ urlsOf (topByUsageWeight (l ++ new) percentile minKeep) := by
  by_cases hall : 100 ≤ percentile ∨ totalSources l = 0
  · obtain ⟨t, ht, rfl⟩ := List.mem_map.mp hu
    have htop := (mem_top_of_all hall).mp ht
    -- where nothing is advertised, nothing that ranks below is
    have hall' : 100 ≤ percentile ∨ totalSources (l ++ new) = 0 := by
      refine hall.imp id fun hzero => ?_
      have hnone : ∀ x ∈ retained new, x.2.sources = 0 := by
        intro x hx
        have ht0 : t.2.sources = 0 := by
          have hmem : t.2.sources ∈ (retained l).map fun t => t.2.sources :=
            List.mem_map_of_mem htop
          exact List.sum_eq_zero_iff.mp hzero _ hmem
        rcases hnew x (mem_retained.mp hx).1 t ht with hlt | ⟨heq, _⟩
        · omega
        · omega
      rw [totalSources] at hzero
      rw [totalSources, retained_append, List.map_append, List.sum_append, hzero, Nat.zero_add,
        List.sum_eq_zero_iff]
      intro n hn
      obtain ⟨x, hx, rfl⟩ := List.mem_map.mp hn
      exact hnone x hx
    apply List.mem_map_of_mem
    rw [mem_top_of_all hall', retained_append]
    exact List.mem_append_left _ htop
  · rw [not_or] at hall
    have hle := @totalSources_le_append l new
    rw [mem_urls_iff_key, top_eq_heaviest hall.1 hall.2] at hu
    rw [mem_urls_iff_key, top_eq_heaviest hall.1 (by omega), retained_append, List.map_append]
    obtain ⟨k, hk, rfl⟩ := List.mem_map.mp hu
    apply List.mem_map_of_mem
    refine (heaviest_append ?_ ?_).subset hk
    · exact Nat.div_le_div_right (satMul_mono hle percentile)
    · intro x hx y hy
      rw [← top_eq_heaviest hall.1 hall.2] at hy
      obtain ⟨a, ha, rfl⟩ := List.mem_map.mp hx
      obtain ⟨b, hb, rfl⟩ := List.mem_map.mp hy
      exact (hnew a (mem_retained.mp ha).1 b hb).key_lt.le

end cut

/-! ## What is returned -/

/-- A relay in scope is in the cut, or pinned, unless something in the cut has its URL up to case
and trailing slashes. -/
theorem mem_urls_scrapeTargets {all : List (List Char × RelayInfo)} {percentile minKeep : ℕ}
    {pins : List (List Char)} {u : List Char} :
    u ∈ urlsOf (scrapeTargets all percentile minKeep pins) ↔
      u ∈ urlsOf (topByUsageWeight all percentile minKeep) ∨
        u ∈ urlsOf (retained all) ∧ normUrl u ∈ pins.map normUrl ∧
          ∀ v ∈ urlsOf (topByUsageWeight all percentile minKeep), normUrl v ≠ normUrl u := by
  unfold scrapeTargets
  dsimp only
  rw [urlsOf, List.map_append, List.mem_append]
  refine or_congr_right ?_
  rw [List.filter_filter, List.mem_map]
  simp only [List.mem_filter, Bool.and_eq_true, decide_eq_true_eq, List.mem_map, not_exists,
    not_and]
  constructor
  · rintro ⟨t, ⟨ht, hout, hpin, hnip⟩, rfl⟩
    refine ⟨List.mem_map_of_mem (mem_retained.mpr ⟨ht, hnip⟩), hpin, fun v hv => ?_⟩
    obtain ⟨s, hs, rfl⟩ := List.mem_map.mp hv
    exact hout s hs
  · rintro ⟨hu, hpin, hout⟩
    obtain ⟨t, ht, rfl⟩ := List.mem_map.mp hu
    obtain ⟨ht, hnip⟩ := mem_retained.mp ht
    exact ⟨t, ⟨ht, fun s hs => hout s.1 (List.mem_map_of_mem hs), hpin, hnip⟩, rfl⟩

/-- The cut is made of what is not known to be no relay. -/
theorem mem_retained_of_mem_top {l : List (List Char × RelayInfo)} {percentile minKeep : ℕ}
    {t : List Char × RelayInfo} (h : t ∈ topByUsageWeight l percentile minKeep) :
    t ∈ retained l := by
  unfold topByUsageWeight at h
  dsimp only at h
  split at h
  · exact h
  · split at h
    · exact (List.perm_insertionSort _ _).mem_iff.mp h
    · exact (List.perm_insertionSort _ _).mem_iff.mp (List.mem_of_mem_take h)

/-- What is in scope is in the table, and not known to be no relay. -/
theorem mem_retained_of_mem_scrapeTargets {all : List (List Char × RelayInfo)}
    {percentile minKeep : ℕ} {pins : List (List Char)} {t : List Char × RelayInfo}
    (h : t ∈ scrapeTargets all percentile minKeep pins) : t ∈ retained all := by
  unfold scrapeTargets at h
  dsimp only at h
  rcases List.mem_append.mp h with htop | hpinned
  · exact mem_retained_of_mem_top htop
  · have hin := (List.mem_filter.mp (List.mem_filter.mp hpinned).1)
    rw [decide_eq_true_eq] at hin
    exact mem_retained.mpr ⟨hin.1, hin.2.2⟩

/-- **Minted relays evict nobody.** The URLs in scope do not depend on the order of the table. When
relays are added that rank below all the cut keeps, every URL in scope before is in scope after, or
it is one pinned from outside the cut and a relay in the cut has the same URL up to case and
trailing slashes. -/
theorem minted_evict_no_relay (percentile minKeep : ℕ) (pins : List (List Char)) :
    (∀ all all' : List (List Char × RelayInfo), all.Perm all' → ∀ u,
      u ∈ urlsOf (scrapeTargets all percentile minKeep pins) ↔
        u ∈ urlsOf (scrapeTargets all' percentile minKeep pins)) ∧
    ∀ all new table : List (List Char × RelayInfo), table.Perm (all ++ new) →
      (∀ x ∈ new, ∀ y ∈ topByUsageWeight all percentile minKeep, RanksBelow x y) →
      ∀ u ∈ urlsOf (scrapeTargets all percentile minKeep pins),
        u ∈ urlsOf (scrapeTargets table percentile minKeep pins) ∨
          u ∉ urlsOf (topByUsageWeight all percentile minKeep) ∧ normUrl u ∈ pins.map normUrl ∧
            ∃ v ∈ urlsOf (topByUsageWeight table percentile minKeep), normUrl v = normUrl u := by
  constructor
  · intro all all' hperm u
    have hretained : u ∈ urlsOf (retained all) ↔ u ∈ urlsOf (retained all') :=
      ((retained_perm hperm).map Prod.fst).mem_iff
    rw [mem_urls_scrapeTargets, mem_urls_scrapeTargets, urls_top_perm hperm, hretained]
    simp only [urls_top_perm hperm]
  · intro all new table hperm hnew u hu
    have hcut : u ∈ urlsOf (topByUsageWeight all percentile minKeep) →
        u ∈ urlsOf (topByUsageWeight table percentile minKeep) := fun h =>
      (urls_top_perm hperm).mpr (urls_top_append hnew h)
    rw [mem_urls_scrapeTargets] at hu ⊢
    rcases hu with htop | ⟨hall, hpin, hout⟩
    · exact Or.inl (Or.inl (hcut htop))
    · have htop : u ∉ urlsOf (topByUsageWeight all percentile minKeep) := fun h => hout u h rfl
      have htable : u ∈ urlsOf (retained table) := by
        rw [urlsOf, ((retained_perm hperm).map Prod.fst).mem_iff, retained_append, List.map_append]
        exact List.mem_append_left _ hall
      by_cases hstands : ∃ v ∈ urlsOf (topByUsageWeight table percentile minKeep),
          normUrl v = normUrl u
      · exact Or.inr ⟨htop, hpin, hstands⟩
      · exact Or.inl (Or.inr ⟨htable, hpin, fun v hv heq => hstands ⟨v, hv, heq⟩⟩)

/-- A relay with so many sources. -/
def advertised (u : String) (sources : ℕ) : List Char × RelayInfo :=
  (u.toList, { sources := sources })

/-- A pinned relay in two spellings, both outside the cut. -/
def twoSpellings : List (List Char × RelayInfo) :=
  [advertised "wss://big" 100, advertised "wss://a" 10, advertised "wss://a/" 5]

/-- Three relays that rank below all of these. -/
def minted : List (List Char × RelayInfo) :=
  [advertised "wss://x" 5, advertised "wss://y" 5, advertised "wss://z" 5]

/-- The relay in the cut stays. -/
theorem minted_keep_the_cut :
    "wss://big".toList ∈ urlsOf (scrapeTargets (minted ++ twoSpellings) 80 1 ["wss://a".toList]) ∨
      "wss://big".toList ∉ urlsOf (topByUsageWeight twoSpellings 80 1) ∧
        normUrl "wss://big".toList ∈ ["wss://a".toList].map normUrl ∧
        ∃ v ∈ urlsOf (topByUsageWeight (minted ++ twoSpellings) 80 1),
          normUrl v = normUrl "wss://big".toList :=
  (minted_evict_no_relay 80 1 ["wss://a".toList]).2 twoSpellings minted (minted ++ twoSpellings)
    List.perm_append_comm (by unfold RanksBelow; decide) _ (by decide)

/-- The cut moves back to one of the spellings, and the other is gone. -/
theorem minted_evict_a_spelling :
    (∀ x ∈ minted, ∀ y ∈ scrapeTargets twoSpellings 80 1 ["wss://a".toList], RanksBelow x y) ∧
      "wss://a/".toList ∈ urlsOf (scrapeTargets twoSpellings 80 1 ["wss://a".toList]) ∧
      "wss://a/".toList ∉ urlsOf (scrapeTargets (twoSpellings ++ minted) 80 1 ["wss://a".toList]) := by
  unfold RanksBelow
  decide

end NostrSearch.Indexer
