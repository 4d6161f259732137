import NostrSearch.Core.Nip19Slices
import NostrSearch.Core.Operators

/-!
# Queries that panic

The planner decodes what a query gives for authors and for referenced events and pubkeys, and a
panic of `decode_hex` aborts the process. All other clauses are built without a panic, and a query
whose free text does not parse is refused before anything is decoded (`returns_iff_no_char_cut`).
-/

namespace NostrSearch.Core

theorem returns_map {ε α β : Type} {r : Except ε α} (f : α → β) :
    Returns (r.map f) ↔ Returns r := by
  cases r with
  | error e => exact iff_of_false nofun nofun
  | ok a => exact iff_of_true ⟨f a, rfl⟩ ⟨a, rfl⟩

theorem returns_mapM {ε α β : Type} (f : α → Except ε β) (l : List α) :
    Returns (l.mapM f) ↔ ∀ x ∈ l, Returns (f x) := by
  induction l with
  | nil => exact iff_of_true ⟨[], rfl⟩ nofun
  | cons x l ih =>
    rw [List.mapM_cons, List.forall_mem_cons, ← ih]
    cases f x with
    | error e => exact iff_of_false nofun fun h => nomatch h.1
    | ok y =>
      cases l.mapM f with
      | error e => exact iff_of_false nofun fun h => nomatch h.2
      | ok ys => exact iff_of_true ⟨y :: ys, rfl⟩ ⟨⟨y, rfl⟩, ys, rfl⟩

namespace QueryPlanner

variable {ε : Type} (p : QueryPlanner ε)

/-- The prefixes of entities that name a pubkey. -/
def pubkeyEntities : List (List Char) := ["npub".toList, "nprofile".toList]

/-- The prefixes of entities that name an event. -/
def eventEntities : List (List Char) := ["note".toList, "nevent".toList]

theorem cutsChar_trim (a : List Char) (allowed : List (List Char)) :
    CutsChar (trim a) allowed ↔ CutsChar a allowed := by
  unfold CutsChar
  rw [trim_trim]

theorem normalizeAuthor_returns_iff (a : List Char) :
    Returns (normalizeAuthor a) ↔ ¬ CutsChar a pubkeyEntities := by
  rw [← cutsChar_trim, ← decodeHex_returns_iff]
  show Returns (decodeHex (trim a) pubkeyEntities >>= _) ↔ _
  cases decodeHex (trim a) pubkeyEntities with
  | error e => exact iff_of_false nofun nofun
  | ok r =>
    refine iff_of_true ?_ ⟨r, rfl⟩
    cases r with
    | none => exact ⟨_, rfl⟩
    | some hex => exact ⟨_, rfl⟩

/-- A clause that keeps the plan from being built does so by a panic. -/
def OnlyPanics (c : Clause ε) : Prop := ∀ e, c = .error e → e = .panic

theorem onlyPanics_guarded {α : Type} (r : Except Panic α) (f : α → Query) :
    OnlyPanics ((guarded r : Except (PlanError ε) α).map f) := by
  intro e h
  cases r with
  | error x =>
    cases h
    rfl
  | ok a => cases h

theorem returns_guarded {α : Type} (r : Except Panic α) (f : α → Query) :
    Returns ((guarded r : Except (PlanError ε) α).map f) ↔ Returns r := by
  cases r with
  | error e => exact iff_of_false nofun nofun
  | ok a => exact iff_of_true ⟨f a, rfl⟩ ⟨a, rfl⟩

/-- Where clauses only panic, the plan is built or panics. -/
theorem buildAll_panics_iff {cs : List (Clause ε)} (h : ∀ c ∈ cs, OnlyPanics c) :
    buildAll cs = .error .panic ↔ ∃ c ∈ cs, ¬ Returns c := by
  induction cs with
  | nil =>
    refine iff_of_false (by rintro ⟨⟩) ?_
    rintro ⟨c, hc, -⟩
    cases hc
  | cons c cs ih =>
    obtain ⟨hc, hcs⟩ := List.forall_mem_cons.mp h
    rw [List.exists_mem_cons_iff, ← ih hcs]
    cases c with
    | error e =>
      rw [hc e rfl]
      refine iff_of_true rfl (Or.inl ?_)
      rintro ⟨q, hq⟩
      cases hq
    | ok q =>
      have hq : ¬ ¬ Returns (Except.ok q : Clause ε) := not_not.mpr ⟨q, rfl⟩
      rw [or_iff_right hq, buildAll]
      cases buildAll cs with
      | error e =>
        show Except.error e = _ ↔ Except.error e = _
        rw [Except.error.injEq]
      | ok qs => exact iff_of_false (by rintro ⟨⟩) (by rintro ⟨⟩)

theorem onlyPanics_of_returns {c : Clause ε} (h : Returns c) : OnlyPanics c := by
  obtain ⟨q, rfl⟩ := h
  exact nofun

theorem onlyPanics_extension (ext : SearchExtensions) :
    ∀ c ∈ p.extensionClauses ext, OnlyPanics c := by
  intro c hc
  simp only [extensionClauses, List.mem_append, List.mem_map] at hc
  rcases hc with (((((⟨a, -, rfl⟩ | ⟨k, -, rfl⟩) | ⟨t, -, rfl⟩) | ⟨l, -, rfl⟩) | ⟨g, -, rfl⟩) |
    ⟨h, -, rfl⟩) | ⟨n, -, rfl⟩
  · exact onlyPanics_guarded _ _
  · exact nofun
  · exact nofun
  · exact nofun
  · exact nofun
  · exact nofun
  · exact nofun

theorem onlyPanics_pushTag {f : Field} {values : List (List Char)} {norm : Norm} :
    ∀ c ∈ p.pushTag f values norm, OnlyPanics c := by
  intro c hc
  unfold pushTag at hc
  split at hc
  · cases hc
  · obtain rfl := List.mem_singleton.mp hc
    exact onlyPanics_guarded _ _

theorem onlyPanics_structured (filter : SearchFilter) :
    ∀ c ∈ p.structuredClauses filter, OnlyPanics c := by
  intro c hc
  simp only [structuredClauses, List.mem_append] at hc
  rcases hc with (((((((((hc | hc) | hc) | hc) | hc) | hc) | hc) | hc) | hc) | hc) | hc
  · split at hc
    · cases hc
    · obtain rfl := List.mem_singleton.mp hc
      exact onlyPanics_guarded _ _
  · split at hc
    · cases hc
    · obtain rfl := List.mem_singleton.mp hc
      exact nofun
  · exact p.onlyPanics_pushTag c hc
  · exact p.onlyPanics_pushTag c hc
  · exact p.onlyPanics_pushTag c hc
  · exact p.onlyPanics_pushTag c hc
  · exact p.onlyPanics_pushTag c hc
  · exact p.onlyPanics_pushTag c hc
  · exact p.onlyPanics_pushTag c hc
  · exact p.onlyPanics_pushTag c hc
  · obtain ⟨l, -, rfl⟩ := List.mem_map.mp hc
    exact nofun

theorem plan_panics_iff_buildAll (filter : SearchFilter) :
    p.plan filter = .error .panic ↔ buildAll (p.clauses filter) = .error .panic := by
  unfold plan
  cases buildAll (p.clauses filter) with
  | error e =>
    show Except.error e = _ ↔ _
    rw [Except.error.injEq, Except.error.injEq]
  | ok qs => exact iff_of_false nofun nofun

/-- The clauses that decode nothing do not panic. -/
theorem returns_pushTag {f : Field} {values : List (List Char)} {norm : Norm}
    (h : ∀ v, Returns (norm.apply p v)) : ∀ c ∈ p.pushTag f values norm, Returns c := by
  intro c hc
  unfold pushTag at hc
  split at hc
  · cases hc
  · obtain rfl := List.mem_singleton.mp hc
    rw [returns_guarded, returns_mapM]
    exact fun v _ => h v

/-- A value of the query that is given to `decode_hex`, with the prefixes that are allowed. -/
def Decodes (filter : SearchFilter) (v : List Char) (allowed : List (List Char)) : Prop :=
  (v ∈ (p.readFilter filter).1.authors ∨ v ∈ filter.authors ∨ v ∈ filter.tagP) ∧
      allowed = pubkeyEntities ∨
    v ∈ filter.tagE ∧ allowed = eventEntities

/-- There is no free text, or it parses. -/
def TextParses (filter : SearchFilter) : Prop :=
  (p.readFilter filter).2 = [] ∨ Returns (p.parseQuery (joinWords (p.readFilter filter).2))

/-- The clauses of `push_tag` that panic. -/
theorem exists_pushTag_panics {f : Field} {values : List (List Char)} {norm : Norm} :
    (∃ c ∈ p.pushTag f values norm, ¬ Returns c) ↔ ∃ v ∈ values, ¬ Returns (norm.apply p v) := by
  unfold pushTag
  split
  case isTrue h =>
    rw [h]
    simp
  case isFalse =>
    rw [List.exists_mem_cons_iff, returns_guarded, returns_mapM]
    simp

theorem pubkeyRef_returns_iff (v : List Char) :
    Returns (Norm.apply p v .pubkeyRef) ↔ ¬ CutsChar v pubkeyEntities := by
  rw [← normalizeAuthor_returns_iff]
  exact returns_map _

theorem eventRef_returns_iff (v : List Char) :
    Returns (Norm.apply p v .eventRef) ↔ ¬ CutsChar v eventEntities := by
  rw [← decodeHex_returns_iff]
  exact returns_map _

/-- Some clause of a list panics. -/
def SomePanics (cs : List (Clause ε)) : Prop := ∃ c ∈ cs, ¬ Returns c

theorem somePanics_append (cs cs' : List (Clause ε)) :
    SomePanics (cs ++ cs') ↔ SomePanics cs ∨ SomePanics cs' := by
  simp only [SomePanics, List.mem_append, or_and_right, exists_or]

theorem not_somePanics_map {α : Type} (l : List α) (f : α → Query) :
    ¬ SomePanics (l.map fun x => (.ok (f x) : Clause ε)) := by
  rintro ⟨c, hc, hnot⟩
  obtain ⟨x, -, rfl⟩ := List.mem_map.mp hc
  exact hnot ⟨f x, rfl⟩

theorem not_somePanics_pushTag {f : Field} {values : List (List Char)} {norm : Norm}
    (h : ∀ v, Returns (norm.apply p v)) : ¬ SomePanics (p.pushTag f values norm) := by
  rintro ⟨c, hc, hnot⟩
  exact hnot (p.returns_pushTag h c hc)

theorem somePanics_extension_iff (ext : SearchExtensions) :
    SomePanics (p.extensionClauses ext) ↔ ∃ v ∈ ext.authors, CutsChar v pubkeyEntities := by
  unfold extensionClauses
  simp only [somePanics_append, not_somePanics_map, or_false]
  unfold SomePanics
  simp [authorClause, returns_guarded, normalizeAuthor_returns_iff]

theorem somePanics_structured_iff (filter : SearchFilter) :
    SomePanics (p.structuredClauses filter) ↔
      (∃ v, (v ∈ filter.authors ∨ v ∈ filter.tagP) ∧ CutsChar v pubkeyEntities) ∨
        ∃ v ∈ filter.tagE, CutsChar v eventEntities := by
  have hok : ∀ v, ∀ norm ∈ [Norm.none, .lower, .coordinate, .host, .nip05],
      Returns (norm.apply p v) := by
    intro v norm hnorm
    simp only [List.mem_cons, List.not_mem_nil, or_false] at hnorm
    rcases hnorm with rfl | rfl | rfl | rfl | rfl <;> exact ⟨_, rfl⟩
  have hauthors : SomePanics (if filter.authors = [] then [] else
      [(authorsClause filter.authors : Clause ε)]) ↔
        ∃ v ∈ filter.authors, CutsChar v pubkeyEntities := by
    unfold SomePanics
    split
    case isTrue h =>
      rw [h]
      simp
    case isFalse =>
      rw [List.exists_mem_cons_iff, authorsClause, returns_guarded, returns_mapM]
      simp [normalizeAuthor_returns_iff]
  have hkinds : ¬ SomePanics (if filter.kinds = [] then [] else
      [(.ok (booleanQuery (filter.kinds.map fun k => (.should, kindQuery k))) : Clause ε)]) := by
    rintro ⟨c, hc, hnot⟩
    split at hc
    · cases hc
    · obtain rfl := List.mem_singleton.mp hc
      exact hnot ⟨_, rfl⟩
  have hevents : SomePanics (p.pushTag .tagE filter.tagE .eventRef) ↔
      ∃ v ∈ filter.tagE, CutsChar v eventEntities := by
    rw [SomePanics, exists_pushTag_panics]
    simp only [eventRef_returns_iff, not_not]
  have hpubkeys : SomePanics (p.pushTag .tagP filter.tagP .pubkeyRef) ↔
      ∃ v ∈ filter.tagP, CutsChar v pubkeyEntities := by
    rw [SomePanics, exists_pushTag_panics]
    simp only [pubkeyRef_returns_iff, not_not]
  have hrest : ∀ f values, ∀ norm ∈ [Norm.none, .lower, .coordinate, .host, .nip05],
      ¬ SomePanics (p.pushTag f values norm) :=
    fun f values norm hnorm => p.not_somePanics_pushTag fun v => hok v norm hnorm
  unfold structuredClauses
  simp only [somePanics_append, not_somePanics_map, hauthors, hkinds, hevents, hpubkeys,
    hrest _ _ Norm.none (by simp), hrest _ _ Norm.lower (by simp),
    hrest _ _ Norm.coordinate (by simp), hrest _ _ Norm.host (by simp),
    hrest _ _ Norm.nip05 (by simp), or_false, or_and_right, exists_or]
  exact or_right_comm

theorem returns_timeClauses (since til : Option ℕ) :
    ∀ c ∈ timeClauses (ε := ε) since til, Returns c := by
  intro c hc
  unfold timeClauses at hc
  split at hc
  · obtain rfl := List.mem_singleton.mp hc
    exact ⟨_, rfl⟩
  · cases hc

theorem returns_textClauses {filter : SearchFilter} (h : p.TextParses filter) :
    ∀ c ∈ p.textClauses (p.readFilter filter).2, Returns c := by
  intro c hc
  unfold textClauses at hc
  split at hc
  case isTrue => cases hc
  case isFalse hne =>
    obtain rfl := List.mem_singleton.mp hc
    obtain ⟨q, hq⟩ := h.resolve_left hne
    exact ⟨q, by rw [hq]; rfl⟩

omit p in
theorem not_somePanics_of_returns {cs : List (Clause ε)} (h : ∀ c ∈ cs, Returns c) :
    ¬ SomePanics cs := by
  rintro ⟨c, hc, hnot⟩
  exact hnot (h c hc)

/-- **A plan panics** if and only if its free text parses and a value it decodes is cut inside a
character. -/
theorem plan_panics_iff (filter : SearchFilter) :
    p.plan filter = .error .panic ↔
      p.TextParses filter ∧ ∃ v allowed, p.Decodes filter v allowed ∧ CutsChar v allowed := by
  have hdecodes : (∃ v allowed, p.Decodes filter v allowed ∧ CutsChar v allowed) ↔
      SomePanics (p.extensionClauses (p.readFilter filter).1) ∨
        SomePanics (p.structuredClauses filter) := by
    rw [somePanics_extension_iff, somePanics_structured_iff]
    unfold Decodes
    constructor
    · rintro ⟨v, allowed, ⟨hv | hv, rfl⟩ | ⟨hv, rfl⟩, hcut⟩
      · exact Or.inl ⟨v, hv, hcut⟩
      · exact Or.inr (Or.inl ⟨v, hv, hcut⟩)
      · exact Or.inr (Or.inr ⟨v, hv, hcut⟩)
    · rintro (⟨v, hv, hcut⟩ | ⟨v, hv, hcut⟩ | ⟨v, hv, hcut⟩)
      · exact ⟨v, _, Or.inl ⟨Or.inl hv, rfl⟩, hcut⟩
      · exact ⟨v, _, Or.inl ⟨Or.inr hv, rfl⟩, hcut⟩
      · exact ⟨v, _, Or.inr ⟨hv, rfl⟩, hcut⟩
  rw [hdecodes, plan_panics_iff_buildAll, clauses]
  by_cases htext : p.TextParses filter
  · -- the text's clause is there, so that nothing but a panic can end the plan
    have hreturns := p.returns_textClauses htext
    have htime : ∀ c ∈ timeClauses (ε := ε) (p.sinceOf filter) (p.tilOf filter), Returns c :=
      returns_timeClauses _ _
    rw [buildAll_panics_iff]
    · show SomePanics _ ↔ _
      rw [somePanics_append, somePanics_append, somePanics_append, or_iff_left (not_somePanics_of_returns htime),
        or_iff_right (not_somePanics_of_returns hreturns), and_iff_right htext]
    · intro c hc
      simp only [List.mem_append] at hc
      rcases hc with ((hc | hc) | hc) | hc
      · exact onlyPanics_of_returns (hreturns c hc)
      · exact p.onlyPanics_extension _ c hc
      · exact p.onlyPanics_structured _ c hc
      · exact onlyPanics_of_returns (htime c hc)
  · -- a query that does not parse comes first
    refine iff_of_false ?_ fun h => htext h.1
    obtain ⟨hne, hquery⟩ := not_or.mp htext
    unfold textClauses
    rw [if_neg hne]
    cases hparse : p.parseQuery (joinWords (p.readFilter filter).2) with
    | error e => exact nofun
    | ok q => exact absurd ⟨q, hparse⟩ hquery

end QueryPlanner

/-- **When `decode_hex` returns.** It does if and only if the cut before the last six bytes is not
inside a character; and a query makes the planner panic if and only if its free text parses and one
of the values it has decoded is cut so: an author, or a referenced event or pubkey. -/
theorem returns_iff_no_char_cut {ε : Type} (s : List Char) (allowed : List (List Char))
    (p : QueryPlanner ε) (filter : SearchFilter) :
    (Returns (decodeHexSlices s allowed) ↔ ¬ CutsChar s allowed) ∧
      (p.plan filter = .error .panic ↔
        p.TextParses filter ∧ ∃ v allowed, p.Decodes filter v allowed ∧ CutsChar v allowed) := by
  constructor
  · exact decodeHexSlices_returns_iff s allowed
  · exact p.plan_panics_iff filter

/-- The cut goes through the letter behind the separator, and an `author:` token of it takes the
planner down. -/
theorem author_token_panics :
    ¬ Returns (decodeHexSlices "npub1é23456".toList ["npub".toList]) ∧
      QueryPlanner.plain.plan (QueryPlanner.ofToken "author:npub1é23456".toList) =
        .error .panic := by
  constructor
  · have hpanic : decodeHexSlices "npub1é23456".toList ["npub".toList] = .error .charBoundary := by
      decide +kernel
    rw [hpanic]
    exact nofun
  · rfl

end NostrSearch.Core
