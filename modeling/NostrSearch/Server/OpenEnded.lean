import NostrSearch.Server.Discovery
import NostrSearch.Server.FanOut

/-!
# Open-ended searches while months appear

A backfill creates months older than any before while the node serves. A search without time bounds
starts at the oldest month the registry remembers, so what it returns depends on when the registry
last looked at its root. A registry opened at that moment has just looked. The two return the same
documents unless the first has something to search from, an open reader or the index of the month it
remembers, and does not look again.
-/

namespace NostrSearch.Server

open NostrSearch.Core NostrSearch.Lib

/-! ## Sums over months -/

/-- Lists that only months of `months` bring are no longer together than those of all of
`months`. -/
theorem length_flatMap_le {β : Type} {f : ShardId → List β} {ids months : List ShardId}
    (hids : ids.Nodup) (hf : ∀ id ∈ ids, id ∉ months → f id = []) :
    (ids.flatMap f).length ≤ (months.map fun id => (f id).length).sum := by
  induction ids generalizing months with
  | nil => exact Nat.zero_le _
  | cons id ids ih =>
    obtain ⟨hid, hids⟩ := List.nodup_cons.mp hids
    rw [List.flatMap_cons, List.length_append]
    by_cases hmem : id ∈ months
    · have hperm := ((List.perm_cons_erase hmem).map fun id => (f id).length).sum_eq
      rw [List.map_cons, List.sum_cons] at hperm
      have hrest : (ids.flatMap f).length ≤
          ((months.erase id).map fun id => (f id).length).sum := by
        apply ih hids
        intro id' hid' hnot
        have hne : id' ≠ id := fun h => hid (h ▸ hid')
        exact hf id' (List.mem_cons_of_mem _ hid') fun h =>
          hnot ((List.mem_erase_of_ne hne).mpr h)
      omega
    · have hnil : f id = [] := hf id List.mem_cons_self hmem
      have hrest := ih hids fun id' hid' => hf id' (List.mem_cons_of_mem _ hid')
      rw [hnil, List.length_nil]
      omega

/-- The months from `e` to the current one. -/
def span (now : ℕ) (e : ShardId) : List ShardId := (shardsInRange now none none e).getD []

section
variable {now : ℕ} {e m id : ShardId}

theorem shardsInRange_span (he : e.Valid) : shardsInRange now none none e = some (span now e) := by
  obtain ⟨out, hout, -⟩ := shardsInRange_spec he now none none
  rw [span, hout, Option.getD_some]

theorem mem_span (he : e.Valid) :
    id ∈ span now e ↔ id.Valid ∧ e ≤ id ∧ id ≤ ShardId.ofUtc now := by
  obtain ⟨out, hout, hmem⟩ := shardsInRange_spec he now none none
  obtain ⟨hvalid, -⟩ := shardsInRange_nodup he hout
  rw [span, hout, Option.getD_some]
  constructor
  · intro h
    exact ⟨hvalid id h, (hmem id (hvalid id h)).mp h⟩
  · rintro ⟨hid, h⟩
    exact (hmem id hid).mpr h

theorem nodup_span (he : e.Valid) : (span now e).Nodup :=
  (shardsInRange_nodup he (shardsInRange_span he)).2

/-- Two open-ended ranges bring the same if and only if the months that only the longer one has
bring nothing. -/
theorem flatMap_span_perm {β : Type} (f : ShardId → List β) (hm : m.Valid) (he : e.Valid)
    (hle : m ≤ e) :
    ((span now e).flatMap f).Perm ((span now m).flatMap f) ↔
      ∀ id ∈ span now m, id < e → f id = [] := by
  have hlate : ((span now m).filter fun id => decide (¬ id < e)).Perm (span now e) := by
    rw [List.perm_ext_iff_of_nodup ((nodup_span hm).filter _) (nodup_span he)]
    intro id
    rw [List.mem_filter, mem_span hm, mem_span he, decide_eq_true_iff, not_lt]
    constructor
    · rintro ⟨⟨hid, -, hnow⟩, hge⟩
      exact ⟨hid, hge, hnow⟩
    · rintro ⟨hid, hge, hnow⟩
      exact ⟨⟨hid, hle.trans hge, hnow⟩, hge⟩
  have hsplit := List.filter_append_perm (fun id => decide (id < e)) (span now m)
  simp only [← decide_not] at hsplit
  -- the longer range is its early months and the shorter range
  have hall : (((span now m).filter fun id => decide (id < e)).flatMap f ++
      (span now e).flatMap f).Perm ((span now m).flatMap f) := by
    have h := hsplit.flatMap_right f
    rw [List.flatMap_append] at h
    exact ((hlate.flatMap_right f).symm.append_left _).trans h
  constructor
  · intro h id hid hlt
    have hlen := (h.trans hall.symm).length_eq
    rw [List.length_append] at hlen
    have hnil : ((span now m).filter fun id => decide (id < e)).flatMap f = [] :=
      List.eq_nil_of_length_eq_zero (by omega)
    rw [List.flatMap_eq_nil_iff] at hnil
    exact hnil id (List.mem_filter.mpr ⟨hid, decide_eq_true hlt⟩)
  · intro h
    have hnil : ((span now m).filter fun id => decide (id < e)).flatMap f = [] := by
      rw [List.flatMap_eq_nil_iff]
      intro id hid
      rw [List.mem_filter] at hid
      exact h id hid.1 (of_decide_eq_true hid.2)
    rw [hnil, List.nil_append] at hall
    exact hall

end

/-! ## What an open-ended search returns -/

/-- The documents a search returns: none with an error. -/
def returned {ε α : Type} : Except ε (List α) → List α
  | .ok hits => hits
  | .error _ => []

namespace SearchContext

variable {ε σ : Type} (ctx : SearchContext ε σ)

/-- The query of a filter: it depends neither on the clock nor on the earliest shard. -/
def queryOf (filter : SearchFilter) : Except (PlanError ε) Query := do
  let qs ← QueryPlanner.buildAll ((ctx.planner 0 ShardRegistry.genesis).clauses filter)
  pure (QueryPlanner.conjunction qs)

/-- A document matches. -/
def Matches (filter : SearchFilter) (d : Document) : Prop :=
  ∃ q, ctx.queryOf filter = .ok q ∧ q d = true

/-- A filter has no time bounds, neither of its own nor in its search string. -/
def OpenEnded (filter : SearchFilter) : Prop :=
  (ctx.planner 0 ShardRegistry.genesis).sinceOf filter = none ∧
    (ctx.planner 0 ShardRegistry.genesis).tilOf filter = none

/-- The limit is large enough for all the matching documents on disk. -/
def LargeEnough (root : Root) (filter : SearchFilter) : Prop :=
  ∀ q, ctx.queryOf filter = .ok q →
    (root.months.map fun id => ((root.docs id).filter q).length).sum ≤ filter.limit

/-- No matching document is in a month that only one of two registries looks at: this one, which
starts at the month it remembers, or one just opened, which starts at the oldest on disk, and looks
at none if that has no index yet. -/
def SeesAll (root : Root) (reg : ShardRegistry) (filter : SearchFilter) (now : ℕ) : Prop :=
  if (root.openReader root.oldest).isSome then
    ∀ id ∈ root.months, id < reg.earliest → id ≤ ShardId.ofUtc now →
      ∀ d ∈ root.docs id, ¬ ctx.Matches filter d
  else
    ∀ id ∈ root.months, reg.earliest ≤ id → id ≤ ShardId.ofUtc now →
      ∀ d ∈ root.docs id, ¬ ctx.Matches filter d

variable {ctx} {root : Root} {reg reg' reg'' : ShardRegistry} {filter : SearchFilter} {now : ℕ}
  {ws ws' : List ℕ}

theorem plan_planner (now : ℕ) (earliest : ShardId) (hopen : ctx.OpenEnded filter) :
    (ctx.planner now earliest).plan filter = (ctx.queryOf filter).map fun q =>
      { query := q, shards := shardsInRange now none none earliest } := by
  have hclauses : (ctx.planner now earliest).clauses filter =
      (ctx.planner 0 ShardRegistry.genesis).clauses filter := rfl
  have hsince : (ctx.planner now earliest).sinceOf filter = none := hopen.1
  have htil : (ctx.planner now earliest).tilOf filter = none := hopen.2
  unfold QueryPlanner.plan queryOf
  rw [hclauses, hsince, htil]
  cases QueryPlanner.buildAll ((ctx.planner 0 ShardRegistry.genesis).clauses filter) with
  | error e => rfl
  | ok qs => rfl

/-- The matching documents of the months from the month searched from. -/
theorem flatten_pools (hroot : ∀ id ∈ root.months, id.Valid) (hreg : reg.Known root)
    (hopen : ctx.OpenEnded filter) {q : Query} (hq : ctx.queryOf filter = .ok q)
    (hfound : (reg.anchor root).2 = true) :
    (ctx.pools root reg filter now).flatten =
      (span now (reg.anchor root).1.earliest).flatMap fun id =>
        ctx.matching filter now q id (root.docs id) := by
  have hvalid := (ShardRegistry.anchor_spec hroot hreg).1
  unfold pools planned
  rcases hanchor : reg.anchor root with ⟨reg₁, found⟩
  rw [hanchor] at hfound hvalid
  cases hfound
  dsimp only
  rw [plan_planner now _ hopen, hq, List.flatMap_def]
  show ((((shardsInRange now none none reg₁.earliest).map fun ids => (q, ids)).elim [] _ :
    List (List (SearchHit σ)))).flatten = _
  rw [shardsInRange_span hvalid]
  rfl

/-- What is searched depends on the registry by where it starts only. -/
theorem pools_congr {reg₂ : ShardRegistry}
    (hfound : (reg.anchor root).2 = (reg₂.anchor root).2)
    (hearliest : (reg.anchor root).2 = true →
      (reg.anchor root).1.earliest = (reg₂.anchor root).1.earliest) :
    ctx.pools root reg filter now = ctx.pools root reg₂ filter now := by
  unfold pools planned
  rcases hanchor : reg.anchor root with ⟨a, found⟩
  rcases hanchor₂ : reg₂.anchor root with ⟨a₂, found₂⟩
  rw [hanchor, hanchor₂] at hfound hearliest
  cases hfound
  cases found with
  | false => rfl
  | true =>
    dsimp only at hearliest ⊢
    rw [hearliest rfl]

theorem pools_of_not_found (hfound : (reg.anchor root).2 = false) :
    ctx.pools root reg filter now = [] := by
  unfold pools planned
  rcases hanchor : reg.anchor root with ⟨reg₁, found⟩
  rw [hanchor] at hfound
  cases hfound
  rfl

theorem pools_of_error (hopen : ctx.OpenEnded filter) {e : PlanError ε}
    (hq : ctx.queryOf filter = .error e) : ctx.pools root reg filter now = [] := by
  unfold pools planned
  rcases reg.anchor root with ⟨reg₁, found⟩
  cases found with
  | false => rfl
  | true =>
    dsimp only
    rw [plan_planner now _ hopen, hq]
    rfl

theorem matching_eq_nil (now : ℕ) (q : Query) (id : ShardId) (docs : List Document) :
    ctx.matching filter now q id docs = [] ↔ ∀ d ∈ docs, q d = false := by
  rw [matching, List.map_eq_nil_iff, List.filter_eq_nil_iff]
  simp only [Bool.not_eq_true]

theorem matching_of_notMem {id : ShardId} (h : id ∉ root.months) (q : Query) :
    ctx.matching filter now q id (root.docs id) = [] := by
  rw [Root.docs_of_notMem h]
  rfl

/-- There are no more matching documents in the months searched than the limit allows. -/
theorem length_pools (hroot : ∀ id ∈ root.months, id.Valid) (hreg : reg.Known root)
    (hopen : ctx.OpenEnded filter) (hlarge : ctx.LargeEnough root filter) :
    (ctx.pools root reg filter now).flatten.length ≤ filter.limit := by
  cases hfound : (reg.anchor root).2 with
  | false =>
    rw [pools_of_not_found hfound]
    exact Nat.zero_le _
  | true =>
    cases hq : ctx.queryOf filter with
    | error e =>
      rw [pools_of_error hopen hq]
      exact Nat.zero_le _
    | ok q =>
      rw [flatten_pools hroot hreg hopen hq hfound]
      have hnodup := @nodup_span now _ (ShardRegistry.anchor_spec hroot hreg).1
      refine (length_flatMap_le hnodup fun id _ hnot => matching_of_notMem hnot q).trans ?_
      simpa only [matching, List.length_map] using hlarge q hq

theorem collect_perm (hits : List (SearchHit σ)) (h : hits.length ≤ filter.limit) :
    (ctx.collect filter hits).Perm hits := by
  unfold collect
  split
  · exact perm_take_insertionSort _ h
  · exact perm_take_insertionSort _ h

theorem merge_perm (hits : List (SearchHit σ)) (h : hits.length ≤ filter.limit) :
    (ctx.merge filter hits).Perm hits := by
  unfold merge
  split
  · exact perm_take_insertionSort _ h
  · exact perm_take_insertionSort _ h

/-- **A search with a large limit returns everything** that matches in the months it plans. -/
theorem returned_perm {r : Except (PlanError ε) (List (SearchHit σ))}
    (hlen : (ctx.pools root reg filter now).flatten.length ≤ filter.limit)
    (h : ctx.search root reg filter now ws = some (reg', r)) :
    (returned r).Perm (ctx.pools root reg filter now).flatten := by
  obtain ⟨hzero, -, hr⟩ | ⟨-, hplan, -, hr⟩ | ⟨query, ids, crew, -, -, hplan, hcrew, -, hr⟩ :=
    search_cases h
  · have hnil : (ctx.pools root reg filter now).flatten = [] :=
      List.eq_nil_of_length_eq_zero (by omega)
    rw [hr, hnil]
    exact List.Perm.refl _
  · have hnil : ctx.pools root reg filter now = [] := by
      rw [pools, hplan]
      rfl
    rw [hnil]
    rcases hr with ⟨-, hr⟩ | ⟨e, hr⟩
    · rw [hr]
      exact List.Perm.refl _
    · rw [hr]
      exact List.Perm.refl _
  · have hpools : (ctx.pools root reg filter now).flatten =
        ids.flatMap fun id => ctx.matching filter now query id (root.docs id) := by
      rw [pools, hplan, List.flatMap_def]
      rfl
    rw [hpools] at hlen ⊢
    -- no month has more than the limit either, so nothing is cut off
    have hout : crew.out.Perm
        (ids.flatMap fun id => ctx.matching filter now query id (root.docs id)) := by
      refine (out_fanOut hcrew).trans (List.Perm.flatMap_left ids fun id hid => ?_)
      apply collect_perm
      have hmem : ctx.matching filter now query id (root.docs id) ∈
          ids.map fun id => ctx.matching filter now query id (root.docs id) :=
        List.mem_map_of_mem hid
      have hsub := (List.sublist_flatten_of_mem hmem).length_le
      rw [← List.flatMap_def] at hsub
      exact hsub.trans hlen
    rw [hr]
    exact (merge_perm _ (hout.length_eq.trans_le hlen)).trans hout

/-- **Searches return.** The workers of a search can always take turns until it is done. -/
theorem exists_search (ctx : SearchContext ε σ) (filter : SearchFilter) (now : ℕ)
    (hroot : ∀ id ∈ root.months, id.Valid) (hreg : reg.Known root) :
    ∃ ws r, ctx.search root reg filter now ws = some r := by
  have hvalid := (ShardRegistry.anchor_spec hroot hreg).1
  unfold search
  by_cases hlimit : filter.limit = 0
  · exact ⟨[], _, if_pos hlimit⟩
  · simp only [if_neg hlimit]
    rcases hanchor : reg.anchor root with ⟨reg₁, found⟩
    rw [hanchor] at hvalid
    cases found with
    | false => exact ⟨[], _, rfl⟩
    | true =>
      dsimp only
      cases hplan : (ctx.planner now reg₁.earliest).plan filter with
      | error e => exact ⟨[], _, rfl⟩
      | ok plan =>
        obtain ⟨ids, hids, -⟩ := shardsInRange_spec hvalid now
          ((ctx.planner now reg₁.earliest).sinceOf filter)
          ((ctx.planner now reg₁.earliest).tilOf filter)
        have hshards : plan.shards = some ids :=
          (QueryPlanner.shards_of_plan _ hplan).trans hids
        obtain ⟨ws, crew, hcrew⟩ := exists_fanOut ctx root reg₁ filter now plan.query ids
        refine ⟨ws, ({ reg₁ with readers := crew.shared }, .ok (ctx.merge filter crew.out)), ?_⟩
        dsimp only
        rw [hshards, Option.bind_some, hcrew, Option.map_some]

/-- A month searched brings nothing if it is not on disk, or has no matching document. -/
theorem forall_span_iff (now : ℕ) {e : ShardId} (he : e.Valid)
    (hroot : ∀ id ∈ root.months, id.Valid) {q : Query} (hq : ctx.queryOf filter = .ok q)
    (p : ShardId → Prop) :
    (∀ id ∈ span now e, p id → ctx.matching filter now q id (root.docs id) = []) ↔
      ∀ id ∈ root.months, p id → e ≤ id → id ≤ ShardId.ofUtc now →
        ∀ d ∈ root.docs id, ¬ ctx.Matches filter d := by
  have hmatches : ∀ d, ¬ ctx.Matches filter d ↔ q d = false := by
    intro d
    rw [← Bool.not_eq_true, not_iff_not]
    constructor
    · rintro ⟨q', hq', hd⟩
      rw [hq] at hq'
      cases hq'
      exact hd
    · exact fun hd => ⟨q, hq, hd⟩
  constructor
  · intro h id hid hp hle hnow d hd
    rw [hmatches]
    exact (matching_eq_nil now q id _).mp
      (h id ((mem_span he).mpr ⟨hroot id hid, hle, hnow⟩) hp) d hd
  · intro h id hid hp
    obtain ⟨-, hle, hnow⟩ := (mem_span he).mp hid
    by_cases hmem : id ∈ root.months
    · rw [matching_eq_nil]
      intro d hd
      exact (hmatches d).mp (h id hmem hp hle hnow d hd)
    · exact matching_of_notMem hmem q

/-- A search that looks at the root again searches what a registry just opened searches. -/
theorem pools_of_rediscovers (hre : reg.Rediscovers root) (maxOpen : ℕ) :
    ctx.pools root reg filter now =
      ctx.pools root (.openWithCapacity root maxOpen) filter now := by
  obtain ⟨hfound, hearliest⟩ := ShardRegistry.anchor_of_rediscovers hre
  obtain ⟨hfound', hearliest'⟩ := ShardRegistry.anchor_open root maxOpen
  cases hmin : root.months.min? with
  | none =>
    have hsame : (reg.discover root).earliest = reg.earliest := by
      rw [ShardRegistry.earliest_discover, hmin, Option.getD_none]
    have hnone : root.openReader root.oldest = none := by
      by_contra hsome
      have hmem := Root.mem_months_of_openReader (Option.isSome_iff_ne_none.mpr hsome)
      rw [List.min?_eq_none_iff.mp hmin] at hmem
      cases hmem
    rw [hsame, hre.2] at hfound
    rw [hnone] at hfound'
    rw [pools_of_not_found hfound, pools_of_not_found hfound']
  | some m =>
    have hsame : (reg.discover root).earliest = root.oldest := by
      rw [ShardRegistry.earliest_discover, Root.oldest, hmin, Option.getD_some, Option.getD_some]
    exact pools_congr (hfound.trans (hsame ▸ hfound'.symm))
      fun _ => hearliest.trans (hsame.trans hearliest'.symm)

/-- A search that does not look again searches as much as a registry just opened does if nothing
that only one of the two looks at matches. -/
theorem pools_perm_iff (hroot : ∀ id ∈ root.months, id.Valid) (hreg : reg.Known root)
    (hopen : ctx.OpenEnded filter) (hre : ¬ reg.Rediscovers root) (maxOpen : ℕ) :
    (ctx.pools root reg filter now).flatten.Perm
        (ctx.pools root (.openWithCapacity root maxOpen) filter now).flatten ↔
      ctx.SeesAll root reg filter now := by
  have hfresh := ShardRegistry.known_open hroot maxOpen
  obtain ⟨hfound', hearliest'⟩ := ShardRegistry.anchor_open root maxOpen
  obtain ⟨hfound, hearliest⟩ := ShardRegistry.anchor_of_known hre
  have hmem : reg.earliest ∈ root.months :=
    hearliest ▸ (ShardRegistry.anchor_spec hroot hreg).2 hfound
  unfold SeesAll
  cases hq : ctx.queryOf filter with
  | error e =>
    have hnone : ∀ d, ¬ ctx.Matches filter d := by
      rintro d ⟨q, hq', -⟩
      rw [hq] at hq'
      cases hq'
    rw [pools_of_error hopen hq, pools_of_error hopen hq]
    refine iff_of_true (List.Perm.refl _) ?_
    split
    · exact fun _ _ _ _ d _ => hnone d
    · exact fun _ _ _ _ d _ => hnone d
  | ok q =>
    rw [flatten_pools hroot hreg hopen hq hfound, hearliest]
    cases hopens : (root.openReader root.oldest).isSome with
    | true =>
      rw [if_pos rfl, flatten_pools hroot hfresh hopen hq (hfound'.trans hopens), hearliest',
        flatMap_span_perm _ (Root.oldest_valid hroot) hreg.valid (Root.oldest_le hmem),
        forall_span_iff now (Root.oldest_valid hroot) hroot hq]
      exact forall₃_congr fun id hid _ => forall_prop_of_true (Root.oldest_le hid)
    | false =>
      rw [if_neg Bool.false_ne_true, pools_of_not_found (hfound'.trans hopens),
        List.flatten_nil, List.perm_nil, List.flatMap_eq_nil_iff]
      have hspan := forall_span_iff now hreg.valid hroot hq fun _ => True
      simpa only [true_imp_iff] using hspan

/-- **One search.** An open-ended search with a large limit returns the same documents as one of a
registry just opened if and only if it looks at the root again, or sees all there is to see. -/
theorem same_iff {maxOpen : ℕ} (hroot : ∀ id ∈ root.months, id.Valid) (hreg : reg.Known root)
    (hopen : ctx.OpenEnded filter) (hlarge : ctx.LargeEnough root filter)
    {r r' : Except (PlanError ε) (List (SearchHit σ))}
    (h : ctx.search root reg filter now ws = some (reg', r))
    (h' : ctx.search root (.openWithCapacity root maxOpen) filter now ws' = some (reg'', r')) :
    (returned r).Perm (returned r') ↔
      reg.Rediscovers root ∨ ctx.SeesAll root reg filter now := by
  have hfresh := ShardRegistry.known_open hroot maxOpen
  have hr := returned_perm (length_pools hroot hreg hopen hlarge) h
  have hr' := returned_perm (length_pools hroot hfresh hopen hlarge) h'
  have hpools : (returned r).Perm (returned r') ↔
      (ctx.pools root reg filter now).flatten.Perm
        (ctx.pools root (.openWithCapacity root maxOpen) filter now).flatten :=
    ⟨fun hp => hr.symm.trans (hp.trans hr'), fun hp => hr.trans (hp.trans hr'.symm)⟩
  rw [hpools]
  by_cases hre : reg.Rediscovers root
  · rw [pools_of_rediscovers hre maxOpen]
    exact iff_of_true (List.Perm.refl _) (Or.inl hre)
  · rw [or_iff_right hre]
    exact pools_perm_iff hroot hreg hopen hre maxOpen

end SearchContext

end NostrSearch.Server
