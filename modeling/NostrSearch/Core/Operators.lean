import NostrSearch.Core.Query

/-!
# Operators of the search string

The operators of a search string are to be ANDed with each other and with the structured filter.
Authors, kinds, tags, geohashes, hosts and NIP-05 identifiers are: each adds a clause of its own.
There is one slot for the language and one for either time bound. A later token replaces what an
earlier one has put there, and a time bound of the string replaces that of the filter.
-/

namespace NostrSearch.Core

namespace QueryPlanner

variable {ε : Type} (p : QueryPlanner ε)

/-! ## The tokens of a filter -/

def tokens (filter : SearchFilter) : List (List Char) :=
  (filter.search.map splitWhitespace).getD []

/-- The filter that is one token. -/
def ofToken (tok : List Char) : SearchFilter := { SearchFilter.default with search := some tok }

theorem mem_tokens {filter : SearchFilter} {tok : List Char} (h : tok ∈ tokens filter) :
    tok ≠ [] ∧ ∀ c ∈ tok, isWhitespace c = false := by
  unfold tokens at h
  cases hs : filter.search with
  | none => simp [hs] at h
  | some raw =>
    rw [hs, Option.map_some, Option.getD_some] at h
    exact mem_splitWhitespaceFrom (fun c hc => by cases hc) h

theorem readFilter_ofToken {filter : SearchFilter} {tok : List Char} {op : Operator}
    (htok : tok ∈ tokens filter) (hop : operatorOf tok = some op) :
    p.readFilter (ofToken tok) = (p.extend {} op, []) := by
  obtain ⟨hne, hword⟩ := mem_tokens htok
  have hsplit : splitWhitespace tok = [tok] := by
    have hwords : ∀ w ∈ [tok], w ≠ [] ∧ ∀ c ∈ w, isWhitespace c = false := by
      simpa using ⟨hne, hword⟩
    have h := splitWhitespace_joinWords hwords
    simpa [joinWords, List.intercalate] using h
  show p.readSearchString tok = _
  rw [readSearchString, hsplit, List.foldl_cons, List.foldl_nil, readToken, hop]

/-! ## What the clauses say -/

/-- A document's time is within bounds that need not be there. -/
def Within (since til : Option ℕ) (d : Document) : Prop :=
  (∀ v, since = some v → v ≤ d.createdAt) ∧ ∀ v, til = some v → d.createdAt < v

/-- A planner with no free text to parse, and no dates. -/
def plain : QueryPlanner Unit :=
  { parseQuery := fun _ => .error (), parseDate := fun _ => none, lower := asciiLower, now := 0,
    earliestShard := ⟨2020, 11⟩ }

end QueryPlanner

end NostrSearch.Core
