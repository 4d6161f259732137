import NostrSearch.Core.Bech32
import NostrSearch.Core.Schema
import NostrSearch.Core.ShardRange

/-!
# The query planner

`QueryPlanner::plan` turns a filter into a query and the list of months to run it in. A query is
what tantivy makes of it, the documents it matches, and the clauses of `plan` are Boolean queries
over terms. Clauses stand next to each other in one list; a clause whose value makes the planner
panic, or free text that does not parse, ends the plan.

Free text is handed to tantivy's query parser and a date to chrono's; both are parameters, with
`to_lowercase`.
-/

namespace NostrSearch.Core

/-! ## Queries -/

/-- `Box<dyn Query>`: which documents match. -/
abbrev Query := Document → Bool

inductive Occur
  | must
  | should
deriving DecidableEq

/-- The longest term tantivy indexes, in bytes. -/
def MAX_TERM_BYTES : ℕ := 65530

/-- The terms of a field that is not analyzed: each value, whole. -/
def Document.terms (d : Document) (f : Field) : List (List Char) :=
  (d.text f).filter fun v => byteLen v ≤ MAX_TERM_BYTES

def termQuery (f : Field) (v : List Char) : Query := fun d => decide (v ∈ d.terms f)

def kindQuery (k : ℕ) : Query := fun d => decide (d.kind = k)

def allQuery : Query := fun _ => true

def emptyQuery : Query := fun _ => false

/-- `RangeQuery` on `created_at`: the lower bound included, the upper one excluded. -/
def rangeQuery (lower upper : Option ℕ) : Query := fun d =>
  lower.all (fun v => v ≤ d.createdAt) && upper.all fun v => d.createdAt < v

/-- `BooleanQuery`: all that must match do, and if nothing must, something that should does. -/
def booleanQuery (clauses : List (Occur × Query)) : Query := fun d =>
  clauses.all (fun c => c.1 == .should || c.2 d) &&
    (clauses.any (fun c => c.1 == .must) || clauses.any fun c => c.2 d)

/-- Any of these values on a field. -/
def anyTerm (f : Field) (values : List (List Char)) : Query :=
  booleanQuery (values.map fun v => (.should, termQuery f v))

/-! ## Filters -/

structure SearchFilter where
  search : Option (List Char)
  authors : List (List Char)
  kinds : List ℕ
  tagT : List (List Char)
  tagE : List (List Char)
  tagP : List (List Char)
  tagA : List (List Char)
  tagD : List (List Char)
  tagG : List (List Char)
  since : Option ℕ
  til : Option ℕ
  lang : Option (List Char)
  hosts : List (List Char)
  nip05 : List (List Char)
  limit : ℕ

/-- `SearchFilter::default()`. -/
def SearchFilter.default : SearchFilter :=
  { search := none, authors := [], kinds := [], tagT := [], tagE := [], tagP := [], tagA := [],
    tagD := [], tagG := [], since := none, til := none, lang := none, hosts := [], nip05 := [],
    limit := 0 }

/-- What the operators of a search string say. -/
structure SearchExtensions where
  authors : List (List Char) := []
  kinds : List ℕ := []
  tagT : List (List Char) := []
  since : Option ℕ := none
  til : Option ℕ := none
  lang : Option (List Char) := none
  geo : List (List Char) := []
  hosts : List (List Char) := []
  nip05 : List (List Char) := []

/-- What ends a plan: a panic, or a query that does not parse. -/
inductive PlanError (ε : Type)
  | panic
  | query (e : ε)
deriving DecidableEq

structure PlannedQuery where
  query : Query
  /-- `none` if the loop of `shards_in_range` does not end -/
  shards : Option (List ShardId)

/-- A plan's surroundings: tantivy's query parser, chrono's `parse_from_str(s, "%Y-%m-%d")` as the
timestamp of its midnight, `to_lowercase`, the clock, and the earliest shard. -/
structure QueryPlanner (ε : Type) where
  parseQuery : List Char → Except ε Query
  parseDate : List Char → Option ℤ
  lower : List Char → List Char
  now : ℕ
  earliestShard : ShardId

namespace QueryPlanner

variable {ε : Type} (p : QueryPlanner ε)

/-- Accept unix seconds or `YYYY-MM-DD`. A date before 1970 wraps around. -/
def parseTime (s : List Char) : Option ℕ :=
  match parseUnsigned 64 s with
  | some v => some v
  | none => (p.parseDate s).map fun ts => (ts % 2 ^ 64).toNat

/-- An operator of the search string, with its value. -/
inductive Operator
  | author (v : List Char)
  | kind (v : List Char)
  | since (v : List Char)
  | til (v : List Char)
  | lang (v : List Char)
  | geo (v : List Char)
  | site (v : List Char)
  | nip05 (v : List Char)
  | tag (v : List Char)

/-- The operator a token is, if any: the first prefix that fits. -/
def operatorOf (tok : List Char) : Option Operator :=
  (stripPrefix "author:".toList tok).map .author <|>
  (stripPrefix "kind:".toList tok).map .kind <|>
  (stripPrefix "since:".toList tok).map .since <|>
  (stripPrefix "until:".toList tok).map .til <|>
  (stripPrefix "lang:".toList tok).map .lang <|>
  (stripPrefix "geo:".toList tok).map .geo <|>
  (stripPrefix "site:".toList tok).map .site <|>
  (stripPrefix "nip05:".toList tok).map .nip05 <|>
  (stripPrefix "#".toList tok).map .tag <|>
  (stripPrefix "tag:".toList tok).map .tag

/-- What one operator adds to the extensions. A kind that does not parse adds nothing; a time that
does not parse takes back the one before. -/
def extend (ext : SearchExtensions) : Operator → SearchExtensions
  | .author v => { ext with authors := ext.authors ++ [v] }
  | .kind v =>
    match parseUnsigned 16 v with
    | some k => { ext with kinds := ext.kinds ++ [k] }
    | none => ext
  | .since v => { ext with since := p.parseTime v }
  | .til v => { ext with til := p.parseTime v }
  | .lang v => { ext with lang := some v }
  | .geo v => { ext with geo := ext.geo ++ [v] }
  | .site v => { ext with hosts := ext.hosts ++ [v] }
  | .nip05 v => { ext with nip05 := ext.nip05 ++ [v] }
  | .tag v => { ext with tagT := ext.tagT ++ [v] }

/-- One token: an operator, or a word of the free text. -/
def readToken (acc : SearchExtensions × List (List Char)) (tok : List Char) :
    SearchExtensions × List (List Char) :=
  match operatorOf tok with
  | some op => (p.extend acc.1 op, acc.2)
  | none => (acc.1, acc.2 ++ [tok])

/-- The tokens of a search string: the operators' extensions, and the free text. -/
def readSearchString (raw : List Char) : SearchExtensions × List (List Char) :=
  (splitWhitespace raw).foldl p.readToken ({}, [])

/-! ## Normal forms of the query side -/

/-- Fold an author token to the lowercase hex pubkey the index holds. -/
def normalizeAuthor (a : List Char) : Except Panic (Option (List Char)) := do
  let a := trim a
  match ← decodeHex a ["npub".toList, "nprofile".toList] with
  | some hex => pure (some hex)
  | none => pure (if byteLen a = 64 ∧ a.all isHexdigit then some (asciiLower a) else none)

/-- Fold a host token the same way the indexer does. -/
def normalizeHost (h : List Char) : List Char :=
  (urlHost p.lower h).getD (withoutPrefix "www.".toList (p.lower (trim h)))

/-- How a query-side value is folded. -/
inductive Norm
  | none
  | lower
  | pubkeyRef
  | eventRef
  | coordinate
  | host
  | nip05

def Norm.apply (v : List Char) : Norm → Except Panic (List Char)
  | .none => .ok v
  | .lower => .ok (p.lower v)
  | .pubkeyRef => (normalizeAuthor v).map fun r => r.getD (p.lower v)
  | .eventRef => (decodeHex v ["note".toList, "nevent".toList]).map fun r => r.getD (normalizeHex v)
  | .coordinate => .ok (normalizeCoordinate v)
  | .host => .ok (p.normalizeHost v)
  | .nip05 => .ok (normalizeNip05 p.lower v)

/-! ## The plan -/

/-- A clause that must match, or what keeps it from being built. -/
abbrev Clause (ε : Type) := Except (PlanError ε) Query

/-- What a panic does to the plan. -/
def guarded {ε α : Type} (r : Except Panic α) : Except (PlanError ε) α :=
  r.mapError fun _ => .panic

/-- The clause of an `author:` token. An author that cannot be a pubkey matches no document. -/
def authorClause (a : List Char) : Clause ε :=
  (guarded (normalizeAuthor a)).map fun r => (r.map (termQuery .pubkey)).getD emptyQuery

/-- `filter.authors`: those that cannot be a pubkey drop out. -/
def authorsClause (authors : List (List Char)) : Clause ε :=
  (guarded (authors.mapM normalizeAuthor)).map fun rs =>
    let hexes := rs.filterMap id
    if hexes = [] then emptyQuery else anyTerm .pubkey hexes

/-- `push_tag`: any of the values matches. -/
def pushTag (f : Field) (values : List (List Char)) (norm : Norm) : List (Clause ε) :=
  if values = [] then []
  else [(guarded (values.mapM fun v => norm.apply p v)).map (anyTerm f)]

/-- The clauses of the operators, but for the time bounds. -/
def extensionClauses (ext : SearchExtensions) : List (Clause ε) :=
  ext.authors.map authorClause ++
    (ext.kinds.map fun k => .ok (kindQuery k)) ++
    (ext.tagT.map fun t => .ok (termQuery .tagT (p.lower t))) ++
    (ext.lang.toList.map fun l => .ok (termQuery .lang (p.lower l))) ++
    (ext.geo.map fun g => .ok (termQuery .tagG (p.lower (trim g)))) ++
    (ext.hosts.map fun h => .ok (termQuery .tagHost (p.normalizeHost h))) ++
    ext.nip05.map fun n => .ok (termQuery .nip05 (normalizeNip05 p.lower n))

/-- The clauses of the structured fields, but for the time bounds. -/
def structuredClauses (filter : SearchFilter) : List (Clause ε) :=
  (if filter.authors = [] then [] else [authorsClause filter.authors]) ++
    (if filter.kinds = [] then []
      else [.ok (booleanQuery (filter.kinds.map fun k => (.should, kindQuery k)))]) ++
    p.pushTag .tagT filter.tagT .lower ++
    p.pushTag .tagE filter.tagE .eventRef ++
    p.pushTag .tagP filter.tagP .pubkeyRef ++
    p.pushTag .tagA filter.tagA .coordinate ++
    p.pushTag .tagD filter.tagD .none ++
    p.pushTag .tagG filter.tagG .lower ++
    p.pushTag .tagHost filter.hosts .host ++
    p.pushTag .nip05 filter.nip05 .nip05 ++
    filter.lang.toList.map fun l => .ok (termQuery .lang (p.lower l))

/-- The free text, if there is any. -/
def textClauses (words : List (List Char)) : List (Clause ε) :=
  if words = [] then [] else [(p.parseQuery (joinWords words)).mapError .query]

def timeClauses (since til : Option ℕ) : List (Clause ε) :=
  if since.isSome ∨ til.isSome then [.ok (rangeQuery since til)] else []

/-- The search string's tokens; no string reads as none. -/
def readFilter (filter : SearchFilter) : SearchExtensions × List (List Char) :=
  match filter.search with
  | some raw => p.readSearchString raw
  | none => ({}, [])

/-- The lower time bound: that of the string, if it has one. -/
def sinceOf (filter : SearchFilter) : Option ℕ := (p.readFilter filter).1.since <|> filter.since

def tilOf (filter : SearchFilter) : Option ℕ := (p.readFilter filter).1.til <|> filter.til

/-- Everything that must match, in the order of `plan`. -/
def clauses (filter : SearchFilter) : List (Clause ε) :=
  p.textClauses (p.readFilter filter).2 ++
    p.extensionClauses (p.readFilter filter).1 ++
    p.structuredClauses filter ++
    timeClauses (p.sinceOf filter) (p.tilOf filter)

/-- No clause, one, or all of them. -/
def conjunction : List Query → Query
  | [] => allQuery
  | [q] => q
  | qs => booleanQuery (qs.map fun q => (.must, q))

/-- Clauses are built one after the other. -/
def buildAll : List (Clause ε) → Except (PlanError ε) (List Query)
  | [] => .ok []
  | c :: cs => do
    let q ← c
    let qs ← buildAll cs
    pure (q :: qs)

/-- `QueryPlanner::plan`. -/
def plan (filter : SearchFilter) : Except (PlanError ε) PlannedQuery := do
  let qs ← buildAll (p.clauses filter)
  pure { query := conjunction qs
         shards := shardsInRange p.now (p.sinceOf filter) (p.tilOf filter) p.earliestShard }

/-- The documents a plan matches. -/
def Matched (filter : SearchFilter) (d : Document) : Prop :=
  ∃ planned, p.plan filter = .ok planned ∧ planned.query d = true

/-! ## What a plan matches -/

theorem conjunction_iff (qs : List Query) (d : Document) :
    conjunction qs d = true ↔ ∀ q ∈ qs, q d = true := by
  match qs with
  | [] => simp [conjunction, allQuery]
  | [q] => simp [conjunction]
  | q :: q' :: qs => simp [conjunction, booleanQuery]

/-- A plan's months are those of the time bounds. -/
theorem shards_of_plan {filter : SearchFilter} {planned : PlannedQuery}
    (h : p.plan filter = .ok planned) :
    planned.shards =
      shardsInRange p.now (p.sinceOf filter) (p.tilOf filter) p.earliestShard := by
  unfold plan at h
  cases hqs : buildAll (p.clauses filter) with
  | error e =>
    rw [hqs] at h
    cases h
  | ok qs =>
    rw [hqs] at h
    cases h
    rfl

/-- A clause is there and matches. -/
def Clause.Holds (c : Clause ε) (d : Document) : Prop := ∃ q, c = .ok q ∧ q d = true

theorem buildAll_eq_ok {cs : List (Clause ε)} {qs : List Query} :
    buildAll cs = .ok qs ↔ cs = qs.map .ok := by
  induction cs generalizing qs with
  | nil =>
    constructor
    · rintro ⟨⟩
      rfl
    · intro h
      rw [List.map_eq_nil_iff.mp h.symm]
      rfl
  | cons c cs ih =>
    cases c with
    | error e =>
      constructor
      · rintro ⟨⟩
      · intro h
        cases qs <;> cases h
    | ok q =>
      constructor
      · intro h
        cases hrest : buildAll cs with
        | error e =>
          rw [buildAll, hrest] at h
          cases h
        | ok qs' =>
          rw [buildAll, hrest] at h
          cases h
          rw [List.map_cons, ← ih.mp hrest]
      · intro h
        cases qs with
        | nil => cases h
        | cons q' qs =>
          obtain ⟨hq, hcs⟩ := List.cons.inj h
          cases hq
          rw [buildAll, ih.mpr hcs]
          rfl

/-- **A plan matches what all its clauses match.** -/
theorem matched_iff (filter : SearchFilter) (d : Document) :
    p.Matched filter d ↔ ∀ c ∈ p.clauses filter, c.Holds d := by
  unfold Matched plan
  constructor
  · rintro ⟨planned, hplan, hd⟩ c hc
    cases hqs : buildAll (p.clauses filter) with
    | error e =>
      rw [hqs] at hplan
      cases hplan
    | ok qs =>
      rw [hqs] at hplan
      cases hplan
      rw [buildAll_eq_ok.mp hqs] at hc
      obtain ⟨q, hq, rfl⟩ := List.mem_map.mp hc
      exact ⟨q, rfl, (conjunction_iff qs d).mp hd q hq⟩
  · intro h
    choose! q hq using h
    have hok : p.clauses filter = ((p.clauses filter).map q).map .ok := by
      rw [List.map_map]
      exact (List.map_id _).symm.trans (List.map_congr_left fun c hc => (hq c hc).1)
    refine ⟨_, by rw [buildAll_eq_ok.mpr hok]; rfl, ?_⟩
    rw [conjunction_iff]
    intro q' hq'
    obtain ⟨c, hc, rfl⟩ := List.mem_map.mp hq'
    exact (hq c hc).2

end QueryPlanner

end NostrSearch.Core
