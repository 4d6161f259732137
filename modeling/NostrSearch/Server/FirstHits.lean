import NostrSearch.Server.FanOut

/-!
# The first hits of all

A query without text asks for the latest documents, equal dates in the order of their ids. The
merge sorts by date and id, but what it sorts is what the months' `TopDocs` have left of them, and
these cut equal dates by address. A document that its month's cut leaves out is no loss as long as
`limit` of those kept, of whatever month, come no later than it by date and id.
-/

namespace NostrSearch.Server

open NostrSearch.Core NostrSearch.Lib

/-- Every document cut off in its month has `limit` kept ones that are no later by date and id. -/
def CutsSafely {σ : Type} (limit : ℕ) (pools : List (List (SearchHit σ))) : Prop :=
  ∀ pool ∈ pools, ∀ x ∈ (pool.insertionSort Later).drop limit,
    limit ≤ (pools.flatMap fun p => (p.insertionSort Later).take limit).countP
      fun y => decide (Newer y x)

instance {σ : Type} (limit : ℕ) (pools : List (List (SearchHit σ))) :
    Decidable (CutsSafely limit pools) :=
  inferInstanceAs (Decidable (∀ pool ∈ pools, ∀ x ∈ (pool.insertionSort Later).drop limit,
    limit ≤ (pools.flatMap fun p => (p.insertionSort Later).take limit).countP
      fun y => decide (Newer y x)))

namespace SearchHit

variable {σ : Type}

instance : Std.Total (Newer (σ := σ)) := by
  refine ⟨fun a b => ?_⟩
  unfold Newer
  rcases lt_trichotomy a.createdAt b.createdAt with h | h | h
  · exact Or.inr (Or.inl h)
  · rcases le_total a.eventId b.eventId with hid | hid
    · exact Or.inl (Or.inr ⟨h, hid⟩)
    · exact Or.inr (Or.inr ⟨h.symm, hid⟩)
  · exact Or.inl (Or.inl h)

instance : IsTrans (SearchHit σ) Newer := by
  refine ⟨fun a b c hab hbc => ?_⟩
  unfold Newer at *
  rcases hab with hab | ⟨hab, hid⟩
  · left
    omega
  · rcases hbc with hbc | ⟨hbc, hid'⟩
    · left
      omega
    · exact Or.inr ⟨hab.trans hbc, hid.trans hid'⟩

end SearchHit

namespace SearchContext

variable {ε σ : Type} {ctx : SearchContext ε σ} {root : Root} {reg reg' : ShardRegistry}
  {filter : SearchFilter} {now : ℕ} {ws : List ℕ}

/-- A search without text merges the months' latest documents. -/
theorem exists_merged {hits : List (SearchHit σ)} (hmeta : filter.search = none)
    (hlimit : 1 ≤ filter.limit)
    (h : ctx.search root reg filter now ws = some (reg', .ok hits)) :
    ∃ xs : List (SearchHit σ),
      xs.Perm ((ctx.pools root reg filter now).flatMap fun pool =>
        (pool.insertionSort Later).take filter.limit) ∧
        hits = (xs.insertionSort Newer).take filter.limit := by
  have htext : ¬ filter.search.isSome = true := by rw [hmeta]; decide
  obtain ⟨hzero, -⟩ | ⟨-, hplan, -, ⟨-, hr⟩ | ⟨e, hr⟩⟩ |
    ⟨query, ids, crew, -, -, hplan, hcrew, -, hr⟩ := search_cases h
  · omega
  · cases hr
    refine ⟨[], ?_, by rw [List.insertionSort_nil, List.take_nil]⟩
    rw [pools, hplan]
    exact List.Perm.refl _
  · cases hr
  · cases hr
    refine ⟨crew.out, ?_, if_neg htext⟩
    have hout := out_fanOut hcrew
    rw [pools, hplan, Option.elim_some, List.flatMap_map]
    simpa only [searchOne, collect, if_neg htext] using hout

/-- **The first of all.** A search without text returns the first `limit` of all matching documents
of the planned months, by date and id, if and only if no month cuts off one of them. -/
theorem first_of_all_iff {hits : List (SearchHit σ)} (hmeta : filter.search = none)
    (hlimit : 1 ≤ filter.limit)
    (h : ctx.search root reg filter now ws = some (reg', .ok hits)) :
    FirstBy Newer filter.limit (ctx.pools root reg filter now).flatten hits ↔
      CutsSafely filter.limit (ctx.pools root reg filter now) := by
  obtain ⟨xs, hxs, rfl⟩ := exists_merged hmeta hlimit h
  set pools := ctx.pools root reg filter now
  have hall := perm_cut (k := filter.limit) (fun pool => pool.insertionSort Later)
    (fun pool => List.perm_insertionSort Later pool) pools
  rw [firstBy_iff hall length_cut hxs]
  constructor
  · intro hcut pool hpool x hx
    exact hcut x (List.mem_flatMap.mpr ⟨pool, hpool, hx⟩)
  · intro hcut x hx
    obtain ⟨pool, hpool, hx⟩ := List.mem_flatMap.mp hx
    exact hcut pool hpool x hx

/-- Documents are lost at a cut only where it goes through documents of one date. -/
theorem cutsSafely_of_no_tie {limit : ℕ} {pools : List (List (SearchHit σ))}
    (h : ∀ pool ∈ pools, ∀ x ∈ (pool.insertionSort Later).drop limit,
      ∀ y ∈ (pool.insertionSort Later).take limit, y.createdAt ≠ x.createdAt) :
    CutsSafely limit pools := by
  intro pool hpool x hx
  have hpair : (pool.insertionSort Later).Pairwise Later :=
    haveI : Std.Total (Later (σ := σ)) := ⟨fun a b => Nat.le_total b.createdAt a.createdAt⟩
    haveI : IsTrans (SearchHit σ) Later := ⟨fun _ _ _ hab hbc => Nat.le_trans hbc hab⟩
    List.pairwise_insertionSort Later pool
  set sorted := pool.insertionSort Later with hsorted
  have hlen : limit ≤ (sorted.take limit).length := by
    have hpos : 0 < (sorted.drop limit).length := List.length_pos_of_mem hx
    rw [List.length_drop] at hpos
    rw [List.length_take]
    omega
  have hnewer : (sorted.take limit).countP (fun y => decide (Newer y x)) =
      (sorted.take limit).length := by
    rw [List.countP_eq_length]
    intro y hy
    rw [← List.take_append_drop limit sorted, List.pairwise_append] at hpair
    have hle : x.createdAt ≤ y.createdAt := hpair.2.2 y hy x hx
    have hne := h pool hpool x hx y hy
    exact decide_eq_true (Or.inl (by omega))
  have hmem : sorted.take limit ∈ pools.map fun p => (p.insertionSort Later).take limit :=
    List.mem_map_of_mem hpool
  have hcount := (List.sublist_flatten_of_mem hmem).countP_le (p := fun y => decide (Newer y x))
  rw [← List.flatMap_def] at hcount
  omega

/-! ## Two months -/

/-- One document in October, and two of one second in November, in the wrong order. -/
def twoMonths : Root :=
  [(⟨2023, 10⟩, some [dated "cc" 1698000000]),
    (⟨2023, 11⟩, some [dated "bb" 1700000000, dated "aa" 1700000000])]

/-- The latest so many documents, searched on the last day of November. -/
def latest (limit : ℕ) (ws : List ℕ) :
    Option (ShardRegistry × Except (PlanError Empty) (List (SearchHit ℕ))) :=
  twoThreads.search twoMonths (.openWithCapacity twoMonths 4)
    { SearchFilter.default with limit := limit } 1701385200 ws

/-- Three documents asked for, the second worker taking November. -/
theorem first_three :
    ∃ reg hits, latest 3 [0, 1, 1, 0, 0, 1] = some (reg, .ok hits) ∧
      FirstBy Newer 3 (twoThreads.pools twoMonths (.openWithCapacity twoMonths 4)
        { SearchFilter.default with limit := 3 } 1701385200).flatten hits := by
  have hrun : (latest 3 [0, 1, 1, 0, 0, 1]).map Prod.snd =
      some (.ok [hydrate (dated "aa" 1700000000) 1700000000 ⟨2023, 11⟩,
        hydrate (dated "bb" 1700000000) 1700000000 ⟨2023, 11⟩,
        hydrate (dated "cc" 1698000000) 1698000000 ⟨2023, 10⟩]) := by decide +kernel
  obtain ⟨⟨reg, r⟩, hreg, rfl⟩ := Option.map_eq_some_iff.mp hrun
  exact ⟨reg, _, hreg, (first_of_all_iff rfl (by decide) hreg).mpr (by decide +kernel)⟩

/-- One document asked for: November's cut keeps `bb`, whose address is the lower, and the merge
never sees `aa`. -/
theorem first_id_cut_off :
    ∃ reg hits, latest 1 [0, 1, 1, 0, 0, 1] = some (reg, .ok hits) ∧
      ¬ FirstBy Newer 1 (twoThreads.pools twoMonths (.openWithCapacity twoMonths 4)
        { SearchFilter.default with limit := 1 } 1701385200).flatten hits := by
  have hrun : (latest 1 [0, 1, 1, 0, 0, 1]).map Prod.snd =
      some (.ok [hydrate (dated "bb" 1700000000) 1700000000 ⟨2023, 11⟩]) := by decide +kernel
  have hpools : (twoThreads.pools twoMonths (.openWithCapacity twoMonths 4)
      { SearchFilter.default with limit := 1 } 1701385200).flatten =
        [hydrate (dated "cc" 1698000000) 1698000000 ⟨2023, 10⟩,
          hydrate (dated "bb" 1700000000) 1700000000 ⟨2023, 11⟩,
          hydrate (dated "aa" 1700000000) 1700000000 ⟨2023, 11⟩] := by decide +kernel
  obtain ⟨⟨reg, r⟩, hreg, rfl⟩ := Option.map_eq_some_iff.mp hrun
  refine ⟨reg, _, hreg, ?_⟩
  rw [hpools]
  rintro ⟨sorted, hperm, hsorted, hpage⟩
  -- `aa` is somewhere behind `bb`, and comes before it
  cases sorted with
  | nil => cases hpage
  | cons h rest =>
    rw [List.take_succ_cons, List.take_zero] at hpage
    obtain rfl := (List.cons.inj hpage).1
    have haa : hydrate (dated "aa" 1700000000) 1700000000 ⟨2023, 11⟩ ∈ rest := by
      have hmem := hperm.symm.subset (List.mem_cons_of_mem _ (List.mem_cons_of_mem _
        (List.mem_singleton_self (hydrate (dated "aa" 1700000000) 1700000000 ⟨2023, 11⟩))))
      exact (List.mem_cons.mp hmem).resolve_left (by decide +kernel)
    have hnewer := List.rel_of_pairwise_cons hsorted haa
    revert hnewer
    decide +kernel

end SearchContext

end NostrSearch.Server
