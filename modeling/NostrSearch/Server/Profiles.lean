import NostrSearch.Core.Findable
import NostrSearch.Lib.Json
import NostrSearch.Server.FirstHits

/-!
# Profiles

`GET /profiles` looks up the kind-0 metadata of up to 200 people in one search, for four documents
each, and keeps the newest of each person. The search is cut by date across all of them, so that
somebody who changes their profile often takes the room of everybody else. `answers_iff` says when
nobody is missed.

`serde_json::from_str`, which takes a profile apart, is a parameter. The archive's copy of an event,
which a hit is given before it is returned, is not looked at here.
-/

namespace NostrSearch.Server

open NostrSearch.Core NostrSearch.Lib

/-- `split_csv` -/
def splitCsv : Option (List Char) → List (List Char)
  | some v => ((v.splitOn ',').map trim).filter fun x => x ≠ []
  | none => []

/-- A kind-0 profile, reduced to what a list needs. -/
structure Profile where
  pubkey : List Char
  name : Option (List Char)
  displayName : Option (List Char)
  picture : Option (List Char)
  nip05 : Option (List Char)
deriving DecidableEq

/-- A field of the metadata that is text, and not blank. -/
def metaField (v : Json) (k : String) : Option (List Char) :=
  (((v.get k).bind Json.asStr).map fun s => trim s.toList).filter fun x => x ≠ []

/-- What is made of an author and a content. -/
def profileFrom (fromStr : List Char → Option Json) (pubkey content : List Char) : Profile :=
  let v := (fromStr content).getD .null
  { pubkey := pubkey
    name := metaField v "name"
    displayName := (metaField v "display_name").or (metaField v "displayName")
    picture := metaField v "picture"
    nip05 := metaField v "nip05" }

/-- An entry of the map `best`: an author, and the date of the event the profile is from. -/
structure BestEntry where
  key : List Char
  createdAt : ℕ
  profile : Profile
deriving DecidableEq

/-- The body of the loop over the hits: newest wins. -/
def keepBest {σ : Type} (fromStr : List Char → Option Json) (best : List BestEntry)
    (h : SearchHit σ) : List BestEntry :=
  if ∃ e ∈ best, e.key = h.pubkey ∧ h.createdAt ≤ e.createdAt then best
  else
    { key := h.pubkey
      createdAt := h.createdAt
      profile := profileFrom fromStr h.pubkey h.content } :: best.filter fun e => e.key ≠ h.pubkey

/-- The map `best` after all hits, its entries in no particular order. -/
def bestOf {σ : Type} (fromStr : List Char → Option Json) (hits : List (SearchHit σ)) :
    List BestEntry :=
  hits.foldl (keepBest fromStr) []

/-- The filter of `profiles`: kind 0, and four documents for each author. -/
def profilesFilter (authors : List (List Char)) : SearchFilter :=
  { SearchFilter.default with
    authors := authors
    kinds := [0]
    limit := min (authors.length * 4) 1000 }

/-- `profiles`, up to the map whose values are returned. -/
def profiles {ε σ : Type} (ctx : SearchContext ε σ) (fromStr : List Char → Option Json) (root : Root)
    (reg : ShardRegistry) (pubkeys : Option (List Char)) (now : ℕ) (ws : List ℕ) :
    Option (ShardRegistry × Except (PlanError ε) (List BestEntry)) :=
  let authors := splitCsv pubkeys
  if authors = [] then some (reg, .ok [])
  else
    -- Bound the fan-out
    let authors := authors.take 200
    (ctx.search root reg (profilesFilter authors) now ws).map fun r =>
      (r.1, r.2.map (bestOf fromStr))

/-- The body of the response. -/
def responseOf (best : List BestEntry) : List Profile := best.map BestEntry.profile

/-! ## What is asked for -/

/-- A pubkey in hex. -/
def ValidPubkey (pk : List Char) : Prop := byteLen pk = 64 ∧ pk.all isHexdigit = true

/-- A kind-0 document of an author, in whatever month. -/
def IsProfileOf (root : Root) (pk : List Char) (d : Document) : Prop :=
  (∃ id, d ∈ root.docs id) ∧ d.kind = 0 ∧ d.text .pubkey = [pk]

/-- One with the largest date. -/
def IsNewest (root : Root) (pk : List Char) (d : Document) : Prop :=
  IsProfileOf root pk d ∧ ∀ d', IsProfileOf root pk d' → d'.createdAt ≤ d.createdAt

/-- One entry for everybody who was asked for and has a profile, from the newest event. -/
structure Answers (fromStr : List Char → Option Json) (root : Root) (authors : List (List Char))
    (best : List BestEntry) : Prop where
  once : (best.map BestEntry.key).Nodup
  all : ∀ pk ∈ authors, (∃ d, IsProfileOf root (normalizeHex pk) d) →
    normalizeHex pk ∈ best.map BestEntry.key
  newest : ∀ e ∈ best, (∃ pk ∈ authors, normalizeHex pk = e.key) ∧
    ∃ d, IsNewest root e.key d ∧ e.createdAt = d.createdAt ∧
      e.profile = profileFrom fromStr e.key (getText d .rawContent)

/-- The documents are those of events: each has one author, and so has an id. -/
structure OfEvents (root : Root) : Prop where
  pubkey : ∀ id, ∀ d ∈ root.docs id, ∃ pk, d.text .pubkey = [pk]
  author : ∀ id id', ∀ d ∈ root.docs id, ∀ d' ∈ root.docs id',
    getText d .eventId = getText d' .eventId → d.text .pubkey = d'.text .pubkey

/-! ## The newest of each -/

section best

variable {σ : Type} {fromStr : List Char → Option Json}

/-- The entries are those of the newest hits, one for each author. -/
structure BestOf (fromStr : List Char → Option Json) (hits : List (SearchHit σ))
    (best : List BestEntry) : Prop where
  once : (best.map BestEntry.key).Nodup
  all : ∀ h ∈ hits, h.pubkey ∈ best.map BestEntry.key
  newest : ∀ e ∈ best, ∃ h ∈ hits,
    e = ⟨h.pubkey, h.createdAt, profileFrom fromStr h.pubkey h.content⟩ ∧
      ∀ h' ∈ hits, h'.pubkey = h.pubkey → h'.createdAt ≤ h.createdAt

theorem BestOf.keepBest {hits : List (SearchHit σ)} {best : List BestEntry}
    (hbest : BestOf fromStr hits best) (h : SearchHit σ) :
    BestOf fromStr (hits ++ [h]) (keepBest fromStr best h) := by
  unfold Server.keepBest
  split
  case isTrue hold =>
    obtain ⟨e, he, hkey, hle⟩ := hold
    refine ⟨hbest.once, ?_, fun e' he' => ?_⟩
    · rw [List.forall_mem_append, List.forall_mem_singleton]
      exact ⟨hbest.all, hkey ▸ List.mem_map_of_mem he⟩
    · obtain ⟨h', hh', rfl, hmax⟩ := hbest.newest e' he'
      refine ⟨h', List.mem_append_left _ hh', rfl, ?_⟩
      rw [List.forall_mem_append, List.forall_mem_singleton]
      refine ⟨hmax, fun hsame => ?_⟩
      -- the entry that is newer is this author's
      have hentry := List.inj_on_of_nodup_map hbest.once he he' (hkey.trans hsame)
      rw [hentry] at hle
      exact hle
  case isFalse hnew =>
    push Not at hnew
    refine ⟨?_, ?_, ?_⟩
    · rw [List.map_cons, List.nodup_cons]
      refine ⟨?_, (List.filter_sublist.map _).nodup hbest.once⟩
      intro hmem
      obtain ⟨e, he, hkey⟩ := List.mem_map.mp hmem
      exact of_decide_eq_true (List.mem_filter.mp he).2 hkey
    · rw [List.forall_mem_append, List.forall_mem_singleton, List.map_cons]
      refine ⟨fun h' hh' => ?_, List.mem_cons_self⟩
      by_cases hsame : h'.pubkey = h.pubkey
      · exact hsame ▸ List.mem_cons_self
      · obtain ⟨e, he, hkey⟩ := List.mem_map.mp (hbest.all h' hh')
        refine List.mem_cons_of_mem _ (List.mem_map.mpr ⟨e, List.mem_filter.mpr ⟨he, ?_⟩, hkey⟩)
        exact decide_eq_true fun heq => hsame (hkey.symm.trans heq)
    · rw [List.forall_mem_cons]
      constructor
      · refine ⟨h, by simp, rfl, ?_⟩
        rw [List.forall_mem_append, List.forall_mem_singleton]
        refine ⟨fun h' hh' hsame => ?_, fun _ => le_rfl⟩
        obtain ⟨e, he, hkey⟩ := List.mem_map.mp (hbest.all h' hh')
        have hlt := hnew e he (hkey.trans hsame)
        obtain ⟨h₀, -, rfl, hmax⟩ := hbest.newest e he
        exact (hmax h' hh' hkey.symm).trans hlt.le
      · intro e he
        obtain ⟨he, hkey⟩ := List.mem_filter.mp he
        obtain ⟨h', hh', rfl, hmax⟩ := hbest.newest e he
        refine ⟨h', List.mem_append_left _ hh', rfl, ?_⟩
        rw [List.forall_mem_append, List.forall_mem_singleton]
        exact ⟨hmax, fun hsame => absurd hsame.symm (of_decide_eq_true hkey)⟩

theorem bestOf_spec (hits : List (SearchHit σ)) : BestOf fromStr hits (bestOf fromStr hits) := by
  induction hits using List.reverseRecOn with
  | nil => exact ⟨List.nodup_nil, nofun, nofun⟩
  | append_singleton hits h ih =>
    rw [bestOf, List.foldl_append, List.foldl_cons, List.foldl_nil]
    exact ih.keepBest h

end best

/-! ## What the search finds -/

section search

variable {ε σ : Type} {ctx : SearchContext ε σ} {root : Root} {reg reg' : ShardRegistry}
  {authors : List (List Char)} {now : ℕ} {ws : List ℕ}

theorem mapM_normalizeAuthor (h : ∀ pk ∈ authors, ValidPubkey pk) :
    authors.mapM QueryPlanner.normalizeAuthor =
      .ok (authors.map fun pk => some (normalizeHex pk)) := by
  induction authors with
  | nil => rfl
  | cons pk authors ih =>
    obtain ⟨⟨h64, hhex⟩, hrest⟩ := List.forall_mem_cons.mp h
    rw [List.mapM_cons, normalizeAuthor_of_hex h64 hhex, ih hrest]
    rfl

/-- The query for some authors' metadata. -/
def profilesQuery (authors : List (List Char)) : Query :=
  QueryPlanner.conjunction [anyTerm .pubkey (authors.map normalizeHex),
    booleanQuery [(.should, kindQuery 0)]]

/-- The filter has a plan. -/
theorem plan_profilesFilter (p : QueryPlanner ε) (hne : authors ≠ [])
    (h : ∀ pk ∈ authors, ValidPubkey pk) :
    p.plan (profilesFilter authors) =
      .ok { query := profilesQuery authors
            shards := shardsInRange p.now none none p.earliestShard } := by
  have hclause : (QueryPlanner.authorsClause authors : QueryPlanner.Clause ε) =
      .ok (anyTerm .pubkey (authors.map normalizeHex)) := by
    unfold QueryPlanner.authorsClause
    rw [mapM_normalizeAuthor h]
    have hsome : (authors.map fun pk => some (normalizeHex pk)).filterMap id =
        authors.map normalizeHex := by
      rw [List.filterMap_map]
      exact congrFun List.filterMap_eq_map authors
    show Except.ok (if _ then _ else _) = _
    rw [hsome, if_neg (fun hnil => hne (List.map_eq_nil_iff.mp hnil))]
  have hclauses : p.clauses (profilesFilter authors) =
      [.ok (anyTerm .pubkey (authors.map normalizeHex)),
        .ok (booleanQuery [(.should, kindQuery 0)])] := by
    have hauthors : (profilesFilter authors).authors = authors := rfl
    unfold QueryPlanner.clauses QueryPlanner.structuredClauses
    rw [hauthors, if_neg hne, hclause]
    rfl
  unfold QueryPlanner.plan
  rw [hclauses]
  rfl

/-- What matches is of kind 0, and has one of the authors. -/
theorem profilesQuery_iff {d : Document} : profilesQuery authors d = true ↔
    (∃ pk ∈ authors, normalizeHex pk ∈ d.terms .pubkey) ∧ d.kind = 0 := by
  rw [profilesQuery, QueryPlanner.conjunction_iff]
  simp [anyTerm, booleanQuery, termQuery, kindQuery]

/-- The search returns hits. -/
theorem exists_hits (hne : authors ≠ []) (h : ∀ pk ∈ authors, ValidPubkey pk)
    {r : Except (PlanError ε) (List (SearchHit σ))}
    (hrun : ctx.search root reg (profilesFilter authors) now ws = some (reg', r)) :
    ∃ hits, r = .ok hits := by
  unfold SearchContext.search at hrun
  split at hrun
  · cases hrun
    exact ⟨_, rfl⟩
  · rcases hanchor : reg.anchor root with ⟨reg₁, found⟩
    rw [hanchor] at hrun
    cases found with
    | false =>
      cases hrun
      exact ⟨_, rfl⟩
    | true =>
      dsimp only at hrun
      rw [plan_profilesFilter _ hne h] at hrun
      obtain ⟨ids, -, hrun⟩ := Option.bind_eq_some_iff.mp hrun
      obtain ⟨crew, -, hrun⟩ := Option.map_eq_some_iff.mp hrun
      cases hrun
      exact ⟨_, rfl⟩

/-- What the months' cuts leave of the documents that match. -/
def keptHits (ctx : SearchContext ε σ) (root : Root) (reg : ShardRegistry)
    (authors : List (List Char)) (now : ℕ) : List (SearchHit σ) :=
  (ctx.pools root reg (profilesFilter authors) now).flatMap fun pool =>
    (pool.insertionSort Later).take (profilesFilter authors).limit

/-- A document of that author and date is left by its month's cut, and fewer than four times as many
documents of others as there are authors asked for, of those that are left, come no later than it by
date and id. -/
def InWindow (ctx : SearchContext ε σ) (root : Root) (reg : ShardRegistry)
    (authors : List (List Char)) (now : ℕ) (pk : List Char) (date : ℕ) : Prop :=
  ∃ x ∈ keptHits ctx root reg authors now, x.pubkey = pk ∧ x.createdAt = date ∧
    (keptHits ctx root reg authors now).countP (fun y => decide (Newer y x ∧ y.pubkey ≠ pk)) <
      (profilesFilter authors).limit

/-- The pools are of documents that match. -/
theorem exists_of_mem_pools (hne : authors ≠ []) (h : ∀ pk ∈ authors, ValidPubkey pk)
    {pool : List (SearchHit σ)} (hpool : pool ∈ ctx.pools root reg (profilesFilter authors) now) :
    ∃ id, pool = ctx.matching (profilesFilter authors) now (profilesQuery authors) id
      (root.docs id) := by
  unfold SearchContext.pools at hpool
  cases hplan : ctx.planned root reg (profilesFilter authors) now with
  | none =>
    rw [hplan] at hpool
    cases hpool
  | some plan =>
    rw [hplan] at hpool
    obtain ⟨id, -, rfl⟩ := List.mem_map.mp hpool
    refine ⟨id, ?_⟩
    unfold SearchContext.planned at hplan
    rcases hanchor : reg.anchor root with ⟨reg₁, found⟩
    rw [hanchor] at hplan
    cases found with
    | false => cases hplan
    | true =>
      dsimp only at hplan
      rw [plan_profilesFilter _ hne h] at hplan
      obtain ⟨ids, -, rfl⟩ := Option.map_eq_some_iff.mp hplan
      rfl

/-- A hit that is left is a metadata document of one of the authors. -/
theorem doc_of_mem_keptHits (hroot : OfEvents root) (hne : authors ≠ [])
    (h : ∀ pk ∈ authors, ValidPubkey pk) {x : SearchHit σ}
    (hx : x ∈ keptHits ctx root reg authors now) :
    (∃ pk ∈ authors, normalizeHex pk = x.pubkey) ∧
      ∃ d, IsProfileOf root x.pubkey d ∧ x.createdAt = d.createdAt ∧
        x.eventId = getText d .eventId ∧ x.content = getText d .rawContent := by
  obtain ⟨pool, hpool, hx⟩ := List.mem_flatMap.mp hx
  have hin := (List.perm_insertionSort Later pool).subset (List.mem_of_mem_take hx)
  obtain ⟨id, rfl⟩ := exists_of_mem_pools hne h hpool
  obtain ⟨d, hd, rfl⟩ := List.mem_map.mp hin
  obtain ⟨hdoc, hquery⟩ := List.mem_filter.mp hd
  obtain ⟨⟨pk, hpk, hterm⟩, hkind⟩ := profilesQuery_iff.mp hquery
  obtain ⟨pk', hpubkey⟩ := hroot.pubkey id d hdoc
  have htext : normalizeHex pk ∈ d.text .pubkey := List.mem_of_mem_filter hterm
  rw [hpubkey, List.mem_singleton] at htext
  have hhit : (ctx.hitOf (profilesFilter authors) now id d).pubkey = pk' := by
    show getText d .pubkey = pk'
    rw [getText, hpubkey]
    rfl
  rw [hhit]
  exact ⟨⟨pk, hpk, htext⟩, d, ⟨⟨id, hdoc⟩, hkind, hpubkey⟩, rfl, rfl, rfl⟩

/-- An author with a profile has a newest one. -/
theorem exists_isNewest {pk : List Char} {d : Document} (hd : IsProfileOf root pk d) :
    ∃ d, IsNewest root pk d := by
  classical
  have hmem : ∀ d', IsProfileOf root pk d' ↔
      d' ∈ (root.months.flatMap root.docs).filter fun d => decide (IsProfileOf root pk d) := by
    intro d'
    rw [List.mem_filter, decide_eq_true_iff]
    refine ⟨fun h => ⟨?_, h⟩, And.right⟩
    obtain ⟨⟨id, hid⟩, -⟩ := h
    refine List.mem_flatMap.mpr ⟨id, ?_, hid⟩
    by_contra hnot
    have hnone : root.lookup id = none := List.lookup_eq_none_iff.mpr fun p hp => by
      rw [bne_iff_ne]
      rintro rfl
      exact hnot (List.mem_map_of_mem hp)
    rw [Root.docs, Root.openReader, hnone] at hid
    cases hid
  cases hmax : ((root.months.flatMap root.docs).filter
      fun d => decide (IsProfileOf root pk d)).argmax Document.createdAt with
  | none =>
    rw [List.argmax_eq_none] at hmax
    have hin := (hmem d).mp hd
    rw [hmax] at hin
    cases hin
  | some m =>
    refine ⟨m, (hmem m).mpr (List.argmax_mem hmax), fun d' hd' => ?_⟩
    exact List.le_of_mem_argmax ((hmem d').mp hd') hmax

/-- **Who is among the hits.** Somebody's newest document is if and only if it is in the window. -/
theorem exists_hit_iff (hroot : OfEvents root) (hne : authors ≠ [])
    (h : ∀ pk ∈ authors, ValidPubkey pk) {hits xs : List (SearchHit σ)}
    (hxs : xs.Perm (keptHits ctx root reg authors now))
    (hhits : hits = (xs.insertionSort Newer).take (profilesFilter authors).limit)
    {pk : List Char} {d : Document} (hd : IsNewest root pk d) :
    (∃ x ∈ hits, x.pubkey = pk ∧ x.createdAt = d.createdAt) ↔
      InWindow ctx root reg authors now pk d.createdAt := by
  have hties : ∀ x ∈ xs, ∀ y ∈ xs, Newer x y → Newer y x →
      (x.pubkey = pk ∧ x.createdAt = d.createdAt ↔ y.pubkey = pk ∧ y.createdAt = d.createdAt) := by
    intro x hx y hy hxy hyx
    obtain ⟨-, a, ⟨⟨ida, ha⟩, -, hapk⟩, -, haid, -⟩ := doc_of_mem_keptHits hroot hne h (hxs.subset hx)
    obtain ⟨-, b, ⟨⟨idb, hb⟩, -, hbpk⟩, -, hbid, -⟩ := doc_of_mem_keptHits hroot hne h (hxs.subset hy)
    -- two hits in either order are of one event
    have hdate : x.createdAt = y.createdAt := by
      rcases hxy with hlt | ⟨heq, -⟩
      · rcases hyx with hlt' | ⟨heq', -⟩ <;> omega
      · exact heq
    have hid : x.eventId = y.eventId := by
      rcases hxy with hlt | ⟨-, hle⟩
      · omega
      · rcases hyx with hlt' | ⟨-, hle'⟩
        · omega
        · exact le_antisymm hle hle'
    have hpubkey := hroot.author ida idb a ha b hb (haid ▸ hbid ▸ hid)
    rw [hapk, hbpk, List.singleton_inj] at hpubkey
    rw [hpubkey, hdate]
  have hcount : ∀ x : SearchHit σ, x.createdAt = d.createdAt →
      xs.countP (fun y => decide (Newer y x ∧ ¬ (y.pubkey = pk ∧ y.createdAt = d.createdAt))) =
        (keptHits ctx root reg authors now).countP fun y => decide (Newer y x ∧ y.pubkey ≠ pk) := by
    intro x hx
    rw [hxs.countP_eq]
    refine List.countP_congr fun y hy => ?_
    obtain ⟨-, a, ha, hdate, -⟩ := doc_of_mem_keptHits hroot hne h hy
    rw [decide_eq_true_iff, decide_eq_true_iff]
    refine and_congr_right fun hyx => not_congr ⟨And.left, fun hpk => ⟨hpk, ?_⟩⟩
    -- nothing of this author is newer
    have hle := hd.2 a (hpk ▸ ha)
    rcases hyx with hlt | ⟨heq, -⟩ <;> omega
  rw [hhits, exists_mem_page_iff hties, InWindow]
  simp only [hxs.mem_iff, and_assoc]
  refine exists_congr fun x => and_congr_right fun _ => and_congr_right fun _ =>
    and_congr_right fun hdate => ?_
  rw [hcount x hdate]

/-- **When profiles are complete.** -/
theorem answers_iff (hroot : OfEvents root) (fromStr : List Char → Option Json)
    {pubkeys : Option (List Char)} (hlength : (splitCsv pubkeys).length ≤ 200)
    (hvalid : ∀ pk ∈ splitCsv pubkeys, ValidPubkey pk)
    {r : Except (PlanError ε) (List BestEntry)}
    (hrun : profiles ctx fromStr root reg pubkeys now ws = some (reg', r)) :
    (∃ best, r = .ok best ∧ Answers fromStr root (splitCsv pubkeys) best) ↔
      ∀ pk ∈ splitCsv pubkeys, ∀ d, IsNewest root (normalizeHex pk) d →
        InWindow ctx root reg (splitCsv pubkeys) now (normalizeHex pk) d.createdAt := by
  unfold profiles at hrun
  dsimp only at hrun
  generalize splitCsv pubkeys = authors at *
  by_cases hne : authors = []
  · subst hne
    cases hrun
    exact ⟨fun _ => nofun, fun _ => ⟨[], rfl, List.nodup_nil, nofun, nofun⟩⟩
  rw [if_neg hne, List.take_of_length_le hlength] at hrun
  obtain ⟨⟨reg₁, r₁⟩, hsearch, hrun⟩ := Option.map_eq_some_iff.mp hrun
  cases hrun
  obtain ⟨hits, rfl⟩ := exists_hits hne hvalid hsearch
  have hlimit : 1 ≤ (profilesFilter authors).limit := by
    have hpos := List.length_pos_iff.mpr hne
    show 1 ≤ min (authors.length * 4) 1000
    omega
  obtain ⟨xs, hxs, hhits⟩ := SearchContext.exists_merged rfl hlimit hsearch
  have hwindow := fun {pk d} hd => @exists_hit_iff _ _ ctx root reg authors now hroot hne hvalid
    hits xs hxs hhits pk d hd
  have hbest : BestOf fromStr hits (bestOf fromStr hits) := bestOf_spec hits
  have hdoc : ∀ x ∈ hits, (∃ pk ∈ authors, normalizeHex pk = x.pubkey) ∧
      ∃ d, IsProfileOf root x.pubkey d ∧ x.createdAt = d.createdAt ∧
        x.eventId = getText d .eventId ∧ x.content = getText d .rawContent := by
    intro x hx
    rw [hhits] at hx
    have hmem := (List.perm_insertionSort Newer xs).subset (List.mem_of_mem_take hx)
    exact doc_of_mem_keptHits hroot hne hvalid (hxs.subset hmem)
  constructor
  · rintro ⟨best, hok, hanswers⟩ pk hpk d hd
    cases hok
    rw [← hwindow hd]
    obtain ⟨e, he, hkey⟩ := List.mem_map.mp (hanswers.all pk hpk ⟨d, hd.1⟩)
    obtain ⟨-, d', hd', hdate, -⟩ := hanswers.newest e he
    obtain ⟨x, hx, rfl, -⟩ := hbest.newest e he
    rw [← hkey] at hd ⊢
    exact ⟨x, hx, rfl, hdate.trans (le_antisymm (hd.2 d' hd'.1) (hd'.2 d hd.1))⟩
  · intro hall
    refine ⟨_, rfl, hbest.once, ?_, ?_⟩
    · rintro pk hpk ⟨d, hd⟩
      obtain ⟨m, hm⟩ := exists_isNewest hd
      obtain ⟨x, hx, hkey, -⟩ := (hwindow hm).mpr (hall pk hpk m hm)
      exact hkey ▸ hbest.all x hx
    · intro e he
      obtain ⟨x, hx, rfl, hmax⟩ := hbest.newest e he
      obtain ⟨⟨pk, hpk, hkey⟩, d, hd, hdate, -, hcontent⟩ := hdoc x hx
      refine ⟨⟨pk, hpk, hkey⟩, d, ⟨hd, fun d' hd' => ?_⟩, hdate, by rw [hcontent]⟩
      -- the newest document of all is a hit, and no newer than this one
      obtain ⟨m, hm⟩ := exists_isNewest hd
      obtain ⟨y, hy, hsame, hdate'⟩ := (hwindow hm).mpr (hkey ▸ hall pk hpk m (hkey.symm ▸ hm))
      have hle := hmax y hy hsame
      have hm' := hm.2 d' hd'
      omega

end search

/-! ## Two authors -/

/-- Sixty-four times the same digit. -/
def keyOf (c : Char) : List Char := List.replicate 64 c

/-- A kind-0 document. -/
def metadata (c : Char) (createdAt : ℕ) : Document :=
  { text := fun f =>
      if f = .pubkey then [keyOf c]
      else if f = .eventId then [c :: (toString createdAt).toList]
      else []
    kind := 0
    createdAt := createdAt
    wotTier := 0 }

/-- One author with a profile, and another with so many newer ones. -/
def revisions (n : ℕ) : Root :=
  [(⟨2023, 11⟩, some (metadata 'b' 1700000000 ::
    (List.range n).map fun i => metadata 'a' (1700000001 + i)))]

/-- The two are asked for. -/
def bothKeys : Option (List Char) := some (keyOf 'a' ++ ',' :: keyOf 'b')

/-- They are looked up on the last day of November. -/
def lookUp (n : ℕ) : Option (ShardRegistry × Except (PlanError Empty) (List BestEntry)) :=
  profiles SearchContext.twoThreads (fun _ => none) (revisions n)
    (.openWithCapacity (revisions n) 4) bothKeys 1701385200 [0, 0, 0]

/-- A profile with nothing in it. -/
def emptyProfile (c : Char) (createdAt : ℕ) : BestEntry :=
  ⟨keyOf c, createdAt, ⟨keyOf c, none, none, none, none⟩⟩

theorem docs_revisions {n : ℕ} {id : ShardId} {d : Document} (h : d ∈ (revisions n).docs id) :
    ∃ c ts, d = metadata c ts := by
  unfold Root.docs Root.openReader revisions at h
  rw [List.lookup_cons] at h
  split at h
  · rcases List.mem_cons.mp h with rfl | h
    · exact ⟨_, _, rfl⟩
    · obtain ⟨i, -, rfl⟩ := List.mem_map.mp h
      exact ⟨_, _, rfl⟩
  · cases h

theorem revisions_ofEvents (n : ℕ) : OfEvents (revisions n) where
  pubkey id d hd := by
    obtain ⟨c, ts, rfl⟩ := docs_revisions hd
    exact ⟨keyOf c, rfl⟩
  author id id' d hd d' hd' hid := by
    obtain ⟨c, ts, rfl⟩ := docs_revisions hd
    obtain ⟨c', ts', rfl⟩ := docs_revisions hd'
    have hc : c = c' := (List.cons.inj hid).1
    rw [hc]
    rfl

/-- Both are found where neither has more than their share. -/
theorem both_answered : ∃ reg' r, lookUp 1 = some (reg', r) ∧
    ((∃ best, r = .ok best ∧ Answers (fun _ => none) (revisions 1) (splitCsv bothKeys) best) ↔
      ∀ pk ∈ splitCsv bothKeys, ∀ d, IsNewest (revisions 1) (normalizeHex pk) d →
        InWindow SearchContext.twoThreads (revisions 1) (.openWithCapacity (revisions 1) 4)
          (splitCsv bothKeys) 1701385200 (normalizeHex pk) d.createdAt) := by
  have hrun : (lookUp 1).map Prod.snd =
      some (.ok [emptyProfile 'b' 1700000000, emptyProfile 'a' 1700000001]) := by decide +kernel
  obtain ⟨⟨reg', r⟩, hreg, -⟩ := Option.map_eq_some_iff.mp hrun
  exact ⟨reg', r, hreg, answers_iff (revisions_ofEvents 1) (fun _ => none) (by decide +kernel)
    (by unfold ValidPubkey; decide +kernel) hreg⟩

/-- Eight revisions of one author take the room of the other. -/
theorem other_author_missed : ∃ reg' r, lookUp 8 = some (reg', r) ∧
    ¬ ∃ best, r = .ok best ∧ Answers (fun _ => none) (revisions 8) (splitCsv bothKeys) best := by
  have hrun : (lookUp 8).map Prod.snd = some (.ok [emptyProfile 'a' 1700000008]) := by
    decide +kernel
  obtain ⟨⟨reg', r⟩, hreg, rfl⟩ := Option.map_eq_some_iff.mp hrun
  refine ⟨reg', _, hreg, ?_⟩
  rintro ⟨best, hbest, hanswers⟩
  cases hbest
  have hkey : normalizeHex (keyOf 'b') = keyOf 'b' := by decide +kernel
  have hb : normalizeHex (keyOf 'b') ∈ [emptyProfile 'a' 1700000008].map BestEntry.key := by
    refine hanswers.all (keyOf 'b') (by decide +kernel) ⟨metadata 'b' 1700000000, ?_⟩
    rw [hkey]
    exact ⟨⟨⟨2023, 11⟩, List.mem_cons_self⟩, rfl, rfl⟩
  rw [hkey] at hb
  revert hb
  decide +kernel

end NostrSearch.Server
