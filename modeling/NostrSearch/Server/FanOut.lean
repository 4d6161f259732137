import NostrSearch.Lib.Crew
import NostrSearch.Lib.TopK
import NostrSearch.Server.ShardRegistry
import Mathlib.Data.Char
import Mathlib.Data.List.Lex

/-!
# Fan-out search

`ShardRegistry::search` plans a query, has its workers run it in every planned month, and merges
what they bring. The workers share a counter over the list of months; each adds the hits of the
months it draws to a list of its own. A month gives its `limit` best documents, by composite score
if the query has text and by date if not, and so does the merge.

tantivy's `TopDocs` takes the largest dates, the lower address first among equal ones. The composite
score and the comparison of scores are parameters, as is what the planner takes from elsewhere.
-/

namespace NostrSearch.Server

open NostrSearch.Core NostrSearch.Lib

/-- What a search takes from elsewhere: the planner's surroundings, the number of threads, and
scores. `composite filter now id d` is the collector's score of a document, `score > score'` is
`above`. -/
structure SearchContext (ε σ : Type) where
  parseQuery : List Char → Except ε Query
  parseDate : List Char → Option ℤ
  lower : List Char → List Char
  availableParallelism : ℕ
  availableParallelism_pos : 0 < availableParallelism
  composite : SearchFilter → ℕ → ShardId → Document → σ
  /-- a timestamp as a score -/
  asScore : ℕ → σ
  above : σ → σ → Bool

/-- How hits of a query without text are merged: by date, the latest first, then by id. -/
def Newer {σ : Type} (a b : SearchHit σ) : Prop :=
  b.createdAt < a.createdAt ∨ a.createdAt = b.createdAt ∧ a.eventId ≤ b.eventId

instance {σ : Type} : DecidableRel (Newer (σ := σ)) := fun _ _ =>
  inferInstanceAs (Decidable (_ ∨ _))

/-- The order of `TopDocs`, on hits in the order of their addresses. -/
def Later {σ : Type} (a b : SearchHit σ) : Prop := b.createdAt ≤ a.createdAt

instance {σ : Type} : DecidableRel (Later (σ := σ)) := fun _ _ =>
  inferInstanceAs (Decidable (_ ≤ _))

namespace SearchContext

variable {ε σ : Type} (ctx : SearchContext ε σ)

/-- `QueryPlanner::new` -/
def planner (now : ℕ) (earliest : ShardId) : QueryPlanner ε :=
  { parseQuery := ctx.parseQuery
    parseDate := ctx.parseDate
    lower := ctx.lower
    now := now
    earliestShard := earliest }

/-- How hits of a query with text are ordered: by score, the highest first. Scores that do not
compare count as equal. -/
def BetterScored (a b : SearchHit σ) : Prop := ctx.above b.score a.score = false

instance : DecidableRel ctx.BetterScored := fun _ _ => inferInstanceAs (Decidable (_ = _))

/-- The hit a document of a month makes in a search. -/
def hitOf (filter : SearchFilter) (now : ℕ) (id : ShardId) (d : Document) : SearchHit σ :=
  hydrate d
    (if filter.search.isSome then ctx.composite filter now id d else ctx.asScore d.createdAt) id

/-- The hits of all the documents of a month that match. -/
def matching (filter : SearchFilter) (now : ℕ) (query : Query) (id : ShardId)
    (docs : List Document) : List (SearchHit σ) :=
  (docs.filter query).map (ctx.hitOf filter now id)

/-- What a shard's collector makes of the hits in it: the composite collector if the query has text,
`TopDocs` if not. -/
def collect (filter : SearchFilter) (hits : List (SearchHit σ)) : List (SearchHit σ) :=
  if filter.search.isSome then (hits.insertionSort ctx.BetterScored).take filter.limit
  else (hits.insertionSort Later).take filter.limit

/-- `search_one`: the best hits of one shard. -/
def searchOne (filter : SearchFilter) (now : ℕ) (query : Query) (id : ShardId)
    (docs : List Document) : List (SearchHit σ) :=
  ctx.collect filter (ctx.matching filter now query id docs)

/-- A worker's work on one month: open its reader, and search it. A plan of more months than can be
open reads those that are not open through readers that are not kept. -/
def work (root : Root) (maxOpen : ℕ) (cacheMisses : Bool) (filter : SearchFilter) (now : ℕ)
    (query : Query) (readers : OpenShards) (id : ShardId) : OpenShards × List (SearchHit σ) :=
  let opened :=
    if cacheMisses then (readers, readers.cachedOrTransient root id)
    else readers.shard root maxOpen id
  (opened.1, opened.2.elim [] (ctx.searchOne filter now query id))

/-- The workers' run, taking turns as in `ws`, if that is a whole run. -/
def fanOut (root : Root) (reg : ShardRegistry) (filter : SearchFilter) (now : ℕ) (query : Query)
    (ids : List ShardId) (ws : List ℕ) : Option (Crew ShardId OpenShards (SearchHit σ)) :=
  let cacheMisses : Bool := reg.maxOpen < ids.length
  let workers := min ctx.availableParallelism (max ids.length 1)
  (run (Crew.step ids (ctx.work root reg.maxOpen cacheMisses filter now query))
    (Crew.start workers reg.readers) ws).filter Crew.isHome

/-- Merge across shards. -/
def merge (filter : SearchFilter) (hits : List (SearchHit σ)) : List (SearchHit σ) :=
  if filter.search.isSome then (hits.insertionSort ctx.BetterScored).take filter.limit
  else (hits.insertionSort Newer).take filter.limit

/-- `ShardRegistry::search`, its workers taking turns as in `ws`; `none` if that is no whole run of
theirs. -/
def search (root : Root) (reg : ShardRegistry) (filter : SearchFilter) (now : ℕ) (ws : List ℕ) :
    Option (ShardRegistry × Except (PlanError ε) (List (SearchHit σ))) :=
  if filter.limit = 0 then some (reg, .ok [])
  else
    match reg.anchor root with
    | (reg, false) => some (reg, .ok [])
    | (reg, true) =>
      match (ctx.planner now reg.earliest).plan filter with
      | .error e => some (reg, .error e)
      | .ok planned =>
        planned.shards.bind fun ids =>
          (ctx.fanOut root reg filter now planned.query ids ws).map fun crew =>
            ({ reg with readers := crew.shared }, .ok (ctx.merge filter crew.out))

/-- What a search plans, its query and the months, if it gets to a plan. -/
def planned (root : Root) (reg : ShardRegistry) (filter : SearchFilter) (now : ℕ) :
    Option (Query × List ShardId) :=
  match reg.anchor root with
  | (_, false) => none
  | (reg, true) =>
    match (ctx.planner now reg.earliest).plan filter with
    | .error _ => none
    | .ok planned => planned.shards.map fun ids => (planned.query, ids)

/-- The matching documents of the planned months, as hits, month by month and in the order of their
addresses. -/
def pools (root : Root) (reg : ShardRegistry) (filter : SearchFilter) (now : ℕ) :
    List (List (SearchHit σ)) :=
  (ctx.planned root reg filter now).elim [] fun plan =>
    plan.2.map fun id => ctx.matching filter now plan.1 id (root.docs id)

end SearchContext

/-! ## What a search comes to -/

namespace SearchContext

variable {ε σ : Type} {ctx : SearchContext ε σ} {root : Root} {reg reg' : ShardRegistry}
  {filter : SearchFilter} {now : ℕ} {query : Query} {ids : List ShardId} {ws : List ℕ}

theorem collect_nil (ctx : SearchContext ε σ) (filter : SearchFilter) :
    ctx.collect filter [] = [] := by
  unfold collect
  split
  · rw [List.insertionSort_nil, List.take_nil]
  · rw [List.insertionSort_nil, List.take_nil]

theorem work_snd (maxOpen : ℕ) (cacheMisses : Bool) (readers : OpenShards) (id : ShardId) :
    (ctx.work root maxOpen cacheMisses filter now query readers id).2 =
      ctx.searchOne filter now query id (root.docs id) := by
  have hnil : ctx.searchOne filter now query id [] = [] := collect_nil ctx filter
  unfold work
  cases cacheMisses with
  | true => exact OpenShards.elim_cachedOrTransient hnil id
  | false =>
    show ((readers.shard root maxOpen id).2.elim [] _ : List (SearchHit σ)) = _
    rw [OpenShards.shard_snd]
    exact OpenShards.elim_cachedOrTransient hnil id

/-- **The workers bring the best hits of every month**, whoever draws what. -/
theorem out_fanOut {crew : Crew ShardId OpenShards (SearchHit σ)}
    (h : ctx.fanOut root reg filter now query ids ws = some crew) :
    crew.out.Perm (ids.flatMap fun id => ctx.searchOne filter now query id (root.docs id)) := by
  unfold fanOut at h
  obtain ⟨hrun, hhome⟩ := Option.filter_eq_some_iff.mp h
  have hpos := ctx.availableParallelism_pos
  exact Crew.out_perm (fun readers id => work_snd _ _ readers id) (by omega) hrun hhome

/-- The workers come to an end, in whatever turns. -/
theorem exists_fanOut (ctx : SearchContext ε σ) (root : Root) (reg : ShardRegistry)
    (filter : SearchFilter) (now : ℕ) (query : Query) (ids : List ShardId) :
    ∃ ws crew, ctx.fanOut root reg filter now query ids ws = some crew := by
  obtain ⟨ws, crew, hrun, hhome⟩ :=
    Crew.exists_home ids (ctx.work root reg.maxOpen (reg.maxOpen < ids.length) filter now query)
      (Crew.start (min ctx.availableParallelism (max ids.length 1)) reg.readers)
  exact ⟨ws, crew, by rw [fanOut, Option.filter_eq_some_iff]; exact ⟨hrun, hhome⟩⟩

/-- They come to an end after no more than two turns for each month and one for each worker. -/
theorem length_fanOut_le {crew : Crew ShardId OpenShards (SearchHit σ)}
    (h : ctx.fanOut root reg filter now query ids ws = some crew) :
    ws.length ≤ 2 * ids.length + min ctx.availableParallelism (max ids.length 1) := by
  have hlen := Crew.length_le_left (Option.filter_eq_some_iff.mp h).1
  rwa [Crew.left_start] at hlen

/-- What a search can come to: no plan, for want of a limit, a reader or a query; or a plan that the
workers carry out. -/
theorem search_cases {r : Except (PlanError ε) (List (SearchHit σ))}
    (h : ctx.search root reg filter now ws = some (reg', r)) :
    (filter.limit = 0 ∧ reg' = reg ∧ r = .ok []) ∨
      (0 < filter.limit ∧ ctx.planned root reg filter now = none ∧ reg' = (reg.anchor root).1 ∧
        ((reg.anchor root).2 = false ∧ r = .ok [] ∨ ∃ e, r = .error e)) ∨
      ∃ query ids crew, 0 < filter.limit ∧ (reg.anchor root).2 = true ∧
        ctx.planned root reg filter now = some (query, ids) ∧
        ctx.fanOut root (reg.anchor root).1 filter now query ids ws = some crew ∧
        reg' = { (reg.anchor root).1 with readers := crew.shared } ∧
        r = .ok (ctx.merge filter crew.out) := by
  unfold search at h
  by_cases hlimit : filter.limit = 0
  · rw [if_pos hlimit] at h
    cases h
    exact Or.inl ⟨hlimit, rfl, rfl⟩
  · rw [if_neg hlimit] at h
    have hpos : 0 < filter.limit := by omega
    right
    unfold planned
    rcases hanchor : reg.anchor root with ⟨reg₁, found⟩
    rw [hanchor] at h
    cases found with
    | false =>
      cases h
      exact Or.inl ⟨hpos, rfl, rfl, Or.inl ⟨rfl, rfl⟩⟩
    | true =>
      dsimp only at h ⊢
      cases hplan : (ctx.planner now reg₁.earliest).plan filter with
      | error e =>
        rw [hplan] at h
        cases h
        exact Or.inl ⟨hpos, rfl, rfl, Or.inr ⟨e, rfl⟩⟩
      | ok plan =>
        rw [hplan] at h
        obtain ⟨ids, hids, h⟩ := Option.bind_eq_some_iff.mp h
        obtain ⟨crew, hcrew, h⟩ := Option.map_eq_some_iff.mp h
        cases h
        refine Or.inr ⟨plan.query, ids, crew, hpos, rfl, ?_, hcrew, rfl, rfl⟩
        dsimp only
        rw [hids, Option.map_some]

/-! ## A small context -/

/-- Two threads, and scores that do not matter. -/
def twoThreads : SearchContext Empty ℕ :=
  { parseQuery := fun _ => .ok allQuery
    parseDate := fun _ => none
    lower := fun s => s
    availableParallelism := 2
    availableParallelism_pos := by decide
    composite := fun _ _ _ _ => 0
    asScore := fun ts => ts
    above := fun a b => decide (b < a) }

/-- A document with an id and a date. -/
def dated (id : String) (createdAt : ℕ) : Document :=
  { text := fun f => if f = .eventId then [id.toList] else []
    kind := 1
    createdAt := createdAt
    wotTier := 0 }

end SearchContext

end NostrSearch.Server
