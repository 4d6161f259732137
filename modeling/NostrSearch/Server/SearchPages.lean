import NostrSearch.Core.ShardNames
import NostrSearch.Server.OpenEnded
import NostrSearch.Server.Profiles

/-!
# Search pages

The index holds no tags and no signature, so a hit is served together with the event as the archive
has it. The archive is asked once for a whole page. Ids that are not hex are not asked for, and the
answers are dealt out again by their positions; `hydrated_page` says that every hit gets the event
that it would get if it were looked up alone.

`EventId::from_hex`, `get_many_raw` and `serde_json::from_slice` are parameters. Nothing else
happens to the archive during a request.
-/

namespace NostrSearch.Server

open NostrSearch.Core NostrSearch.Lib

/-! ## Events of the archive -/

/-- The archive's database, as far as it is used here. -/
structure ArchiveDb (ι J : Type) where
  fromHex : List Char → Option ι
  getManyRaw : List ι → List (Option (List UInt8))
  fromSlice : List UInt8 → Option J

/-- `db` is there if this process owns the index lock. -/
structure ArchiveState (ι J : Type) where
  db : Option (ArchiveDb ι J)

namespace ArchiveDb

variable {ι J : Type}

/-- The body of the loop over the ids: `slots` and `wanted`. -/
def slot (db : ArchiveDb ι J) (acc : List (Option ℕ) × List ι) (id : List Char) :
    List (Option ℕ) × List ι :=
  match db.fromHex id with
  | some eid => (acc.1 ++ [some acc.2.length], acc.2 ++ [eid])
  | none => (acc.1 ++ [none], acc.2)

/-- What is at a slot, if it is an event. -/
def eventAt (db : ArchiveDb ι J) (raws : List (Option (List UInt8))) (slot : Option ℕ) :
    Option J := do
  let i ← slot
  let answer ← raws[i]?
  let raw ← answer
  db.fromSlice raw

end ArchiveDb

/-- `events_by_hex_ids`. -/
def ArchiveState.eventsByHexIds {ι J : Type} (st : ArchiveState ι J) (ids : List (List Char)) :
    List (Option J) :=
  match st.db with
  | none => List.replicate ids.length none
  | some db =>
    let (slots, wanted) := ids.foldl db.slot ([], [])
    slots.map (db.eventAt (db.getManyRaw wanted))

/-! ## Requests -/

/-- A hit, with the complete signed event. -/
structure ServedHit (σ J : Type) where
  hit : SearchHit σ
  event : Option J := none

/-- `for (hit, ev) in hits.iter_mut().zip(fetched)`. -/
def setEvents {σ J : Type} : List (ServedHit σ J) → List (Option J) → List (ServedHit σ J)
  | h :: hits, ev :: fetched => { h with event := ev } :: setEvents hits fetched
  | hits, _ => hits

/-- `hydrate_events`. -/
def hydrateEvents {σ ι J : Type} (archive : Option (ArchiveState ι J))
    (hits : List (ServedHit σ J)) :
    List (ServedHit σ J) :=
  match archive with
  | none => hits
  | some archive =>
    if hits = [] then hits
    else setEvents hits (archive.eventsByHexIds (hits.map fun h => h.hit.eventId))

/-- `clamp_limit`. -/
def clampLimit (limit : Option ℕ) : ℕ := max 1 (min (limit.getD 50) 500)

/-- `split_kinds`. -/
def splitKinds (s : Option (List Char)) : List ℕ := (splitCsv s).filterMap (parseUnsigned 16)

/-- The query string of `GET /search`. -/
structure SearchParams where
  q : Option (List Char) := none
  kind : Option (List Char) := none
  author : Option (List Char) := none
  tag : Option (List Char) := none
  since : Option ℕ := none
  til : Option ℕ := none
  lang : Option (List Char) := none
  site : Option (List Char) := none
  nip05 : Option (List Char) := none
  geo : Option (List Char) := none
  limit : Option ℕ := none

/-- The body of `POST /search`. -/
structure SearchFilterDto where
  search : Option (List Char) := none
  authors : List (List Char) := []
  kinds : List ℕ := []
  tagT : List (List Char) := []
  tagE : List (List Char) := []
  tagP : List (List Char) := []
  tagA : List (List Char) := []
  tagD : List (List Char) := []
  tagG : List (List Char) := []
  since : Option ℕ := none
  til : Option ℕ := none
  lang : Option (List Char) := none
  hosts : List (List Char) := []
  nip05 : List (List Char) := []
  limit : Option ℕ := none

/-- The filter that `search_get` makes of its parameters. -/
def SearchParams.toFilter (p : SearchParams) : SearchFilter :=
  { SearchFilter.default with
    search := p.q
    authors := splitCsv p.author
    kinds := splitKinds p.kind
    tagT := splitCsv p.tag
    since := p.since
    til := p.til
    lang := p.lang
    tagG := splitCsv p.geo
    hosts := splitCsv p.site
    nip05 := splitCsv p.nip05
    limit := clampLimit p.limit }

/-- `From<SearchFilterDto> for SearchFilter`. -/
def SearchFilterDto.toFilter (d : SearchFilterDto) : SearchFilter where
  search := d.search
  authors := d.authors
  kinds := d.kinds
  tagT := d.tagT
  tagE := d.tagE
  tagP := d.tagP
  tagA := d.tagA
  tagD := d.tagD
  tagG := d.tagG
  since := d.since
  til := d.til
  lang := d.lang
  hosts := d.hosts
  nip05 := d.nip05
  limit := clampLimit d.limit

section handlers

variable {ε σ ι J : Type}

/-- `run_search`. -/
def runSearch (ctx : SearchContext ε σ) (archive : Option (ArchiveState ι J)) (root : Root)
    (reg : ShardRegistry) (filter : SearchFilter) (now : ℕ) (ws : List ℕ) :
    Option (ShardRegistry × Except (PlanError ε) (List (ServedHit σ J))) :=
  (ctx.search root reg filter now ws).map fun r =>
    (r.1, r.2.map fun hits => hydrateEvents archive (hits.map fun hit => { hit }))

/-- `search_get`. -/
def searchGet (ctx : SearchContext ε σ) (archive : Option (ArchiveState ι J)) (root : Root)
    (reg : ShardRegistry) (p : SearchParams) (now : ℕ) (ws : List ℕ) :
    Option (ShardRegistry × Except (PlanError ε) (List (ServedHit σ J))) :=
  runSearch ctx archive root reg p.toFilter now ws

/-- `search_post`. -/
def searchPost (ctx : SearchContext ε σ) (archive : Option (ArchiveState ι J)) (root : Root)
    (reg : ShardRegistry) (d : SearchFilterDto) (now : ℕ) (ws : List ℕ) :
    Option (ShardRegistry × Except (PlanError ε) (List (ServedHit σ J))) :=
  runSearch ctx archive root reg d.toFilter now ws

/-- What is asked of `/search`. -/
inductive SearchRequest
  | get (p : SearchParams)
  | post (d : SearchFilterDto)

def SearchRequest.filter : SearchRequest → SearchFilter
  | get p => p.toFilter
  | post d => d.toFilter

def SearchRequest.serve (ctx : SearchContext ε σ) (archive : Option (ArchiveState ι J))
    (root : Root) (reg : ShardRegistry) (now : ℕ) (ws : List ℕ) :
    SearchRequest → Option (ShardRegistry × Except (PlanError ε) (List (ServedHit σ J)))
  | get p => searchGet ctx archive root reg p now ws
  | post d => searchPost ctx archive root reg d now ws

/-- `get_event`: `none` is `404 Not Found`. -/
def getEventRoute (one : σ) (archive : Option (ArchiveState ι J)) (root : Root)
    (reg : ShardRegistry) (id : List Char) : ShardRegistry × Option (ServedHit σ J) :=
  let id := normalizeHex (trim id)
  let found := reg.getEvent one root id
  (found.1, found.2.bind fun hit => (hydrateEvents archive [{ hit }]).head?)

end handlers

/-! ## The answers, dealt out -/

namespace ArchiveDb

variable {ι J : Type} {db : ArchiveDb ι J} {getRaw : ι → Option (List UInt8)}

/-- `get_many_raw` answers by position. -/
def Positional (db : ArchiveDb ι J) (getRaw : ι → Option (List UInt8)) : Prop :=
  ∀ ids, db.getManyRaw ids = ids.map getRaw

/-- The event of one id, looked up alone. -/
def eventOf (db : ArchiveDb ι J) (getRaw : ι → Option (List UInt8)) (id : List Char) : Option J :=
  (db.fromHex id).bind fun eid => (getRaw eid).bind db.fromSlice

theorem eventAt_some {raws : List (Option (List UInt8))} {i : ℕ} (answer : Option (List UInt8))
    (h : raws[i]? = some answer) : db.eventAt raws (some i) = answer.bind db.fromSlice := by
  show (raws[i]?).bind _ = _
  rw [h]
  rfl

/-- The slots point at the ids that are wanted, and what is there belongs to the id of the slot. -/
theorem slots_spec (db : ArchiveDb ι J) (getRaw : ι → Option (List UInt8))
    (ids : List (List Char)) :
    let acc := ids.foldl db.slot ([], [])
    (∀ s ∈ acc.1, ∀ i ∈ s, i < acc.2.length) ∧
      acc.1.map (db.eventAt (acc.2.map getRaw)) = ids.map (db.eventOf getRaw) := by
  induction ids using List.reverseRecOn with
  | nil => exact ⟨List.forall_mem_nil _, rfl⟩
  | append_singleton ids id ih =>
    rw [List.foldl_append, List.foldl_cons, List.foldl_nil]
    generalize ids.foldl db.slot ([], []) = acc at ih
    obtain ⟨slots, wanted⟩ := acc
    obtain ⟨hlt, hevents⟩ := ih
    unfold slot
    cases hid : db.fromHex id with
    | none =>
      dsimp only at hlt hevents ⊢
      refine ⟨List.forall_mem_append.mpr ⟨hlt, ?_⟩, ?_⟩
      · rw [List.forall_mem_singleton]
        rintro i ⟨⟩
      · rw [List.map_append, List.map_append, hevents]
        congr 1
        rw [List.map_singleton, List.map_singleton, eventOf, hid]
        rfl
    | some eid =>
      dsimp only at hlt hevents ⊢
      rw [List.length_append, List.length_singleton]
      refine ⟨List.forall_mem_append.mpr ⟨fun s hs i hi => ?_, ?_⟩, ?_⟩
      · exact Nat.lt_succ_of_lt (hlt s hs i hi)
      · rw [List.forall_mem_singleton]
        rintro i ⟨⟩
        exact Nat.lt_succ_self _
      · rw [List.map_append, List.map_append (f := db.eventOf getRaw), ← hevents]
        congr 1
        · -- a further answer is behind those of the slots so far
          refine List.map_congr_left fun s hs => ?_
          cases s with
          | none => rfl
          | some i =>
            have hi := hlt _ hs i rfl
            have hget : (wanted.map getRaw)[i]? = some (getRaw wanted[i]) := by
              rw [List.getElem?_map, List.getElem?_eq_getElem hi, Option.map_some]
            rw [eventAt_some _ hget, eventAt_some (getRaw wanted[i])]
            rw [List.map_append, List.getElem?_append_left (by rwa [List.length_map]), hget]
        · rw [List.map_singleton, List.map_singleton, eventOf, hid, Option.bind_some,
            eventAt_some (getRaw eid)]
          rw [List.map_append, List.getElem?_append_right (by rw [List.length_map]),
            List.length_map, Nat.sub_self]
          rfl

end ArchiveDb

section archive

variable {σ ι J : Type} {archive : Option (ArchiveState ι J)} {getRaw : ι → Option (List UInt8)}

/-- The event of one id, as far as there is an archive that can be asked. -/
def archivedEvent (archive : Option (ArchiveState ι J)) (getRaw : ι → Option (List UInt8))
    (id : List Char) : Option J :=
  (archive.bind ArchiveState.db).bind fun db => db.eventOf getRaw id

/-- **The batch is the lookups one by one**: malformed and missing ids shift nothing. -/
theorem eventsByHexIds_eq {st : ArchiveState ι J} (hdb : ∀ db ∈ st.db, db.Positional getRaw)
    (ids : List (List Char)) :
    st.eventsByHexIds ids = ids.map fun id => st.db.bind fun db => db.eventOf getRaw id := by
  unfold ArchiveState.eventsByHexIds
  cases hst : st.db with
  | none => exact List.map_const'.symm
  | some db =>
    have hspec := (db.slots_spec getRaw ids).2
    rw [← hdb db hst] at hspec
    exact hspec

theorem setEvents_map (hits : List (ServedHit σ J)) (f : ServedHit σ J → Option J) :
    setEvents hits (hits.map f) = hits.map fun h => { h with event := f h } := by
  induction hits with
  | nil => rfl
  | cons h hits ih => rw [List.map_cons, setEvents, ih, List.map_cons]

theorem hydrateEvents_eq (hdb : ∀ db, archive.bind ArchiveState.db = some db → db.Positional getRaw)
    (hits : List (SearchHit σ)) :
    hydrateEvents archive (hits.map fun hit => { hit }) =
      hits.map fun hit => { hit, event := archivedEvent archive getRaw hit.eventId } := by
  unfold hydrateEvents
  cases archive with
  | none => rfl
  | some st =>
    dsimp only
    split
    case isTrue hnil =>
      rw [List.map_eq_nil_iff] at hnil
      rw [hnil]
      rfl
    case isFalse =>
      rw [eventsByHexIds_eq hdb, List.map_map, setEvents_map, List.map_map]
      rfl

end archive

/-! ## Pages -/

namespace SearchContext

variable {ε σ : Type} {ctx : SearchContext ε σ} {root : Root} {reg reg' : ShardRegistry}
  {filter : SearchFilter} {now : ℕ} {ws : List ℕ}

/-- A plan's query is that of its filter. -/
theorem queryOf_planned {query : Query} {ids : List ShardId}
    (h : ctx.planned root reg filter now = some (query, ids)) : ctx.queryOf filter = .ok query := by
  unfold planned at h
  rcases hanchor : reg.anchor root with ⟨reg₁, found⟩
  rw [hanchor] at h
  cases found with
  | false => cases h
  | true =>
    have hclauses : (ctx.planner now reg₁.earliest).clauses filter =
        (ctx.planner 0 ShardRegistry.genesis).clauses filter := rfl
    dsimp only at h
    unfold QueryPlanner.plan at h
    unfold queryOf
    rw [hclauses] at h
    cases hbuild : QueryPlanner.buildAll ((ctx.planner 0 ShardRegistry.genesis).clauses filter) with
    | error e =>
      rw [hbuild] at h
      cases h
    | ok qs =>
      rw [hbuild] at h
      obtain ⟨shards, -, heq⟩ := Option.map_eq_some_iff.mp h
      cases heq
      rfl

theorem mem_collect {hits : List (SearchHit σ)} {hit : SearchHit σ}
    (h : hit ∈ ctx.collect filter hits) : hit ∈ hits := by
  unfold collect at h
  split at h
  · exact (List.perm_insertionSort _ hits).subset (List.mem_of_mem_take h)
  · exact (List.perm_insertionSort _ hits).subset (List.mem_of_mem_take h)

theorem mem_merge {hits : List (SearchHit σ)} {hit : SearchHit σ}
    (h : hit ∈ ctx.merge filter hits) : hit ∈ hits := by
  unfold merge at h
  split at h
  · exact (List.perm_insertionSort _ hits).subset (List.mem_of_mem_take h)
  · exact (List.perm_insertionSort _ hits).subset (List.mem_of_mem_take h)

theorem length_merge_le (hits : List (SearchHit σ)) :
    (ctx.merge filter hits).length ≤ filter.limit := by
  unfold merge
  split
  · exact List.length_take_le _ _
  · exact List.length_take_le _ _

/-- What a search finds are documents that match, and no more of them than asked for. -/
theorem search_sound {hits : List (SearchHit σ)}
    (h : ctx.search root reg filter now ws = some (reg', .ok hits)) :
    hits.length ≤ filter.limit ∧
      ∀ hit ∈ hits, ∃ id, ∃ d ∈ root.docs id, ctx.Matches filter d ∧
        hit = ctx.hitOf filter now id d := by
  have hnil : ([] : List (SearchHit σ)).length ≤ filter.limit ∧
      ∀ hit ∈ ([] : List (SearchHit σ)), ∃ id, ∃ d ∈ root.docs id, ctx.Matches filter d ∧
        hit = ctx.hitOf filter now id d :=
    ⟨Nat.zero_le _, List.forall_mem_nil _⟩
  rcases search_cases h with ⟨-, -, hok⟩ | ⟨-, -, -, hno⟩ |
    ⟨query, ids, crew, -, -, hplan, hcrew, -, hok⟩
  · cases hok
    exact hnil
  · rcases hno with ⟨-, hok⟩ | ⟨e, herr⟩
    · cases hok
      exact hnil
    · cases herr
  · cases hok
    refine ⟨length_merge_le _, fun hit hmem => ?_⟩
    obtain ⟨id, -, hone⟩ := List.mem_flatMap.mp ((out_fanOut hcrew).subset (mem_merge hmem))
    obtain ⟨d, hd, rfl⟩ := List.mem_map.mp (mem_collect hone)
    obtain ⟨hd, hmatch⟩ := List.mem_filter.mp hd
    exact ⟨id, d, hd, ⟨query, queryOf_planned hplan, hmatch⟩, rfl⟩

/-- **Text search.** The page has the documents with the best scores of all that match in the
planned months, however the workers share the months. -/
theorem best_scored [Std.Total ctx.BetterScored] [IsTrans (SearchHit σ) ctx.BetterScored]
    {hits : List (SearchHit σ)} (htext : filter.search.isSome = true) (hlimit : 1 ≤ filter.limit)
    (h : ctx.search root reg filter now ws = some (reg', .ok hits)) :
    FirstBy ctx.BetterScored filter.limit (ctx.pools root reg filter now).flatten hits := by
  rcases search_cases h with ⟨hzero, -, -⟩ | ⟨-, hnone, -, hno⟩ |
    ⟨query, ids, crew, -, -, hplan, hcrew, -, hok⟩
  · omega
  · rcases hno with ⟨-, hok⟩ | ⟨e, herr⟩
    · cases hok
      rw [pools, hnone]
      exact ⟨[], List.Perm.refl _, List.Pairwise.nil, List.take_nil.symm⟩
    · cases herr
  · cases hok
    have hcut : crew.out.Perm ((ctx.pools root reg filter now).flatMap fun pool =>
        (pool.insertionSort ctx.BetterScored).take filter.limit) := by
      refine (out_fanOut hcrew).trans (List.Perm.of_eq ?_)
      rw [pools, hplan, Option.elim_some, List.flatMap_map]
      refine List.flatMap_congr fun id _ => ?_
      rw [searchOne, collect, if_pos htext]
    rw [merge, if_pos htext]
    exact firstBy_cut hcut

/-- Two threads, and the latest documents score best. -/
private def latestBest : SearchContext Empty ℕ :=
  { twoThreads with composite := fun _ _ _ d => d.createdAt }

/-- Two of three documents, searched for by a word that all of them match. -/
theorem best_two :
    ∃ reg hits, latestBest.search twoMonths (.openWithCapacity twoMonths 4)
        { SearchFilter.default with search := some "nostr".toList, limit := 2 } 1701385200
        [0, 1, 1, 0, 0, 1] = some (reg, .ok hits) ∧
      FirstBy latestBest.BetterScored 2 (latestBest.pools twoMonths (.openWithCapacity twoMonths 4)
        { SearchFilter.default with search := some "nostr".toList, limit := 2 }
        1701385200).flatten hits := by
  have hrun : (latestBest.search twoMonths (.openWithCapacity twoMonths 4)
      { SearchFilter.default with search := some "nostr".toList, limit := 2 } 1701385200
      [0, 1, 1, 0, 0, 1]).map Prod.snd =
      some (.ok [hydrate (dated "bb" 1700000000) 1700000000 ⟨2023, 11⟩,
        hydrate (dated "aa" 1700000000) 1700000000 ⟨2023, 11⟩]) := by decide +kernel
  obtain ⟨⟨reg, r⟩, hreg, rfl⟩ := Option.map_eq_some_iff.mp hrun
  have hle : ∀ a b : SearchHit ℕ, latestBest.BetterScored a b ↔ b.score ≤ a.score :=
    fun a b => (decide_eq_false_iff_not).trans not_lt
  have htotal : Std.Total latestBest.BetterScored :=
    ⟨fun a b => by rw [hle, hle]; exact le_total b.score a.score⟩
  have htrans : IsTrans (SearchHit ℕ) latestBest.BetterScored :=
    ⟨fun a b c hab hbc => by rw [hle] at *; exact hbc.trans hab⟩
  exact ⟨reg, _, hreg, best_scored rfl (by decide) hreg⟩

end SearchContext

section pages

variable {ε σ ι J : Type} {ctx : SearchContext ε σ} {archive : Option (ArchiveState ι J)}
  {getRaw : ι → Option (List UInt8)} {root : Root} {reg reg' : ShardRegistry} {now : ℕ}
  {ws : List ℕ}

theorem clampLimit_le (limit : Option ℕ) : 1 ≤ clampLimit limit ∧ clampLimit limit ≤ 500 := by
  unfold clampLimit
  omega

theorem page_of_filter {filter : SearchFilter} {page : List (ServedHit σ J)}
    (hdb : ∀ db, archive.bind ArchiveState.db = some db → db.Positional getRaw)
    (h : runSearch ctx archive root reg filter now ws = some (reg', .ok page)) :
    ∃ hits, ctx.search root reg filter now ws = some (reg', .ok hits) ∧
      page = hits.map fun hit => { hit, event := archivedEvent archive getRaw hit.eventId } := by
  obtain ⟨⟨reg₁, r⟩, hsearch, heq⟩ := Option.map_eq_some_iff.mp h
  cases r with
  | error e => cases heq
  | ok hits =>
    cases heq
    exact ⟨hits, hsearch, hydrateEvents_eq hdb hits⟩

/-- **A page of hits** is no longer than 500, and all on it are documents that match, each with the
event that the archive has under its own id. -/
theorem hydrated_page (req : SearchRequest) {page : List (ServedHit σ J)}
    (hdb : ∀ db, archive.bind ArchiveState.db = some db → db.Positional getRaw)
    (h : req.serve ctx archive root reg now ws = some (reg', .ok page)) :
    page.length ≤ 500 ∧
      ctx.search root reg req.filter now ws = some (reg', .ok (page.map ServedHit.hit)) ∧
      ∀ s ∈ page, s.event = archivedEvent archive getRaw s.hit.eventId ∧
        ∃ id, ∃ d ∈ root.docs id, ctx.Matches req.filter d ∧
          s.hit = ctx.hitOf req.filter now id d := by
  have hrun : runSearch ctx archive root reg req.filter now ws = some (reg', .ok page) := by
    cases req <;> exact h
  have hlimit : req.filter.limit ≤ 500 := by
    cases req
    · exact (clampLimit_le _).2
    · exact (clampLimit_le _).2
  obtain ⟨hits, hsearch, rfl⟩ := page_of_filter hdb hrun
  obtain ⟨hlen, hsound⟩ := SearchContext.search_sound hsearch
  refine ⟨?_, ?_, fun s hs => ?_⟩
  · rw [List.length_map]
    exact hlen.trans hlimit
  · rw [List.map_map, hsearch]
    congr 3
    exact (List.map_id hits).symm
  · obtain ⟨hit, hhit, rfl⟩ := List.mem_map.mp hs
    exact ⟨rfl, hsound hit hhit⟩

/-! ## One event -/

theorem bind_cachedOrTransient {β : Type} {o : OpenShards} {f : List Document → Option β}
    (hf : f [] = none) (id : ShardId) :
    (o.cachedOrTransient root id).bind f = f (root.docs id) := by
  unfold OpenShards.cachedOrTransient OpenShards.cached Root.docs
  by_cases h : id ∈ o.shards
  · rw [if_pos h]
    rfl
  · rw [if_neg h]
    cases root.openReader id with
    | none => exact hf.symm
    | some docs => rfl

theorem findIn_eq_some {one : σ} {id : ShardId} {docs : List Document} {eventId : List Char}
    {hit : SearchHit σ} (h : ShardRegistry.findIn one id docs eventId = some hit) :
    ∃ d ∈ docs, eventId ∈ d.terms .eventId ∧ hit = hydrate d one id := by
  obtain ⟨d, hd, rfl⟩ := Option.map_eq_some_iff.mp h
  have hterm : termQuery .eventId eventId d = true := List.find?_some hd
  exact ⟨d, List.mem_of_find?_eq_some hd, of_decide_eq_true hterm, rfl⟩

theorem findIn_eq_none {one : σ} {id : ShardId} {docs : List Document} {eventId : List Char} :
    ShardRegistry.findIn one id docs eventId = none ↔ ∀ d ∈ docs, eventId ∉ d.terms .eventId := by
  rw [ShardRegistry.findIn, Option.map_eq_none_iff, List.find?_eq_none]
  refine forall₂_congr fun d _ => ?_
  rw [termQuery, decide_eq_true_eq]

/-- A month that is not looked into has no documents. -/
theorem docs_of_notMem {month : ShardId} (h : month ∉ root.months) : root.docs month = [] := by
  have hnone : root.lookup month = none := by
    rw [List.lookup_eq_none_iff]
    intro e he
    rw [bne_iff_ne]
    rintro rfl
    exact h (List.mem_map_of_mem he)
  rw [Root.docs, Root.openReader, hnone]
  rfl

/-- An event is looked up in every month. -/
theorem getEvent_cases (one : σ) (root : Root) (reg : ShardRegistry) (eventId : List Char) :
    ((reg.getEvent one root eventId).2 = none ∧
      ∀ month, ∀ d ∈ root.docs month, eventId ∉ d.terms .eventId) ∨
    ∃ month, ∃ d ∈ root.docs month, eventId ∈ d.terms .eventId ∧
      (reg.getEvent one root eventId).2 = some (hydrate d one month) := by
  have hfind : ∀ (o : OpenShards) (id : ShardId),
      ((o.cachedOrTransient root id).bind fun docs => ShardRegistry.findIn one id docs eventId) =
        ShardRegistry.findIn one id (root.docs id) eventId :=
    fun o id => bind_cachedOrTransient rfl id
  unfold ShardRegistry.getEvent
  dsimp only
  simp only [hfind]
  generalize horder : (List.filter _ _ ++ List.filter _ _ : List ShardId) = order
  have hmem : ∀ month ∈ root.months, month ∈ order := by
    intro month hmonth
    have hlisted : month ∈ (reg.allShardIds root).2.reverse := by
      rw [List.mem_reverse, ShardRegistry.allShardIds, List.mem_insertionSort, List.mem_dedup]
      exact List.mem_append_right _ hmonth
    rw [← horder, List.mem_append, List.mem_filter, List.mem_filter]
    cases hopen : ((reg.allShardIds root).1.readers.cached root month).isSome with
    | true => exact Or.inl ⟨hlisted, rfl⟩
    | false => exact Or.inr ⟨hlisted, rfl⟩
  cases hfound : order.findSome? fun id => ShardRegistry.findIn one id (root.docs id) eventId with
  | none =>
    refine Or.inl ⟨rfl, fun month d hd => ?_⟩
    by_cases hmonth : month ∈ root.months
    · rw [List.findSome?_eq_none_iff] at hfound
      exact findIn_eq_none.mp (hfound month (hmem month hmonth)) d hd
    · rw [docs_of_notMem hmonth] at hd
      cases hd
  | some hit =>
    obtain ⟨month, -, hhit⟩ := List.exists_of_findSome?_eq_some hfound
    obtain ⟨d, hd, hterm, rfl⟩ := findIn_eq_some hhit
    exact Or.inr ⟨month, d, hd, hterm, rfl⟩

/-- **`GET /event`** finds an event that is in any month, with the archive's copy of it, however the
id is written and whatever readers are open. -/
theorem event_served (one : σ) (hdb : ∀ db, archive.bind ArchiveState.db = some db →
      db.Positional getRaw) (id : List Char) :
    let found := (getEventRoute one archive root reg id).2
    (found = none ↔
      ∀ month, ∀ d ∈ root.docs month, normalizeHex (trim id) ∉ d.terms .eventId) ∧
    ∀ s ∈ found, s.event = archivedEvent archive getRaw s.hit.eventId ∧
      ∃ month, ∃ d ∈ root.docs month, normalizeHex (trim id) ∈ d.terms .eventId ∧
        s.hit = hydrate d one month := by
  intro found
  have hfound : found = ((reg.getEvent one root (normalizeHex (trim id))).2.map fun hit =>
      { hit, event := archivedEvent archive getRaw hit.eventId }) := by
    show ((reg.getEvent one root (normalizeHex (trim id))).2.bind _) = _
    cases (reg.getEvent one root (normalizeHex (trim id))).2 with
    | none => rfl
    | some hit =>
      show (hydrateEvents archive ([hit].map fun hit => { hit })).head? = _
      rw [hydrateEvents_eq hdb]
      rfl
  rcases getEvent_cases one root reg (normalizeHex (trim id)) with ⟨hnone, hall⟩ |
    ⟨month, d, hd, hterm, hsome⟩
  · rw [hfound, hnone]
    exact ⟨iff_of_true rfl hall, by rintro s ⟨⟩⟩
  · rw [hfound, hsome]
    refine ⟨iff_of_false (by rintro ⟨⟩) fun hall => hall month d hd hterm, ?_⟩
    rintro s ⟨⟩
    exact ⟨rfl, month, d, hd, hterm, rfl⟩

end pages

/-! ## A small archive -/

namespace SearchContext

/-- An archive of one event. -/
private def oneEvent : ArchiveState (List Char) (List UInt8) where
  db := some
    { fromHex := fun id => if id.length = 2 then some id else none
      getManyRaw := fun ids => ids.map fun id => if id = "bb".toList then some [7] else none
      fromSlice := some }

private theorem oneEvent_positional {db : ArchiveDb (List Char) (List UInt8)}
    (h : (some oneEvent).bind ArchiveState.db = some db) :
    db.Positional fun id => if id = "bb".toList then some [7] else none := by
  cases h
  exact fun ids => rfl

/-- Three hits, of which the archive has the second. -/
theorem served_three :
    ∃ reg page, (SearchRequest.get { limit := some 3 }).serve twoThreads (some oneEvent) twoMonths
        (.openWithCapacity twoMonths 4) 1701385200 [0, 1, 1, 0, 0, 1] = some (reg, .ok page) ∧
      page.length ≤ 500 ∧ ∀ s ∈ page, s.event = archivedEvent (some oneEvent)
        (fun id => if id = "bb".toList then some [7] else none) s.hit.eventId := by
  have hrun : ((SearchRequest.get { limit := some 3 }).serve twoThreads (some oneEvent) twoMonths
      (.openWithCapacity twoMonths 4) 1701385200 [0, 1, 1, 0, 0, 1]).map
        (fun r => r.2.map fun page => page.map fun s => s.event) =
      some (.ok [none, some [7], none]) := by decide +kernel
  obtain ⟨⟨reg, r⟩, hreg, hr⟩ := Option.map_eq_some_iff.mp hrun
  cases r with
  | error e => cases hr
  | ok page =>
    obtain ⟨hlen, -, hpage⟩ := hydrated_page _ (fun _ h => oneEvent_positional h) hreg
    exact ⟨reg, page, hreg, hlen, fun s hs => (hpage s hs).1⟩

/-- The event `bb`, and an id that nothing has. -/
theorem served_one :
    ((getEventRoute 1 (some oneEvent) twoMonths (.openWithCapacity twoMonths 4) " BB".toList).2 =
        none ↔
      ∀ month, ∀ d ∈ twoMonths.docs month, normalizeHex (trim " BB".toList) ∉ d.terms .eventId) ∧
    ∀ s ∈ (getEventRoute 1 (some oneEvent) twoMonths (.openWithCapacity twoMonths 4)
        " BB".toList).2,
      s.event = archivedEvent (some oneEvent)
        (fun id => if id = "bb".toList then some [7] else none) s.hit.eventId :=
  ⟨(event_served 1 (fun _ h => oneEvent_positional h) _).1,
    fun s hs => ((event_served 1 (fun _ h => oneEvent_positional h) _).2 s hs).1⟩

end SearchContext

end NostrSearch.Server
