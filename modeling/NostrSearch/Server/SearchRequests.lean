import NostrSearch.Core.Trim
import NostrSearch.Server.SearchPages

/-!
# What a query string can ask

`GET /search` takes its lists as text with commas, and `POST /search` as JSON. Splitting a text
trims its items and drops those that are empty, so that it never gives an item that is empty, has
a comma, or begins or ends with a blank (`writable_splitCsv`); a list without such items is what its
items joined with commas are split into (`splitCsv_join`).

So the queries of the first are those of the second without such items, and without the tags that
the first has no parameter for (`get_asks_iff`).
-/

namespace NostrSearch.Server

open NostrSearch.Core NostrSearch.Lib

/-! ## Lists in a query string -/

/-- What an item of a split text is. -/
def CsvItem (x : List Char) : Prop := x ≠ [] ∧ ',' ∉ x ∧ trim x = x

/-- A parameter that has the items, or is left out. -/
def joinCsv (xs : List (List Char)) : Option (List Char) :=
  if xs = [] then none else some (List.intercalate [','] xs)

theorem notMem_of_mem_splitOn {c : Char} {s piece : List Char} (h : piece ∈ s.splitOn c) :
    c ∉ piece := by
  induction s generalizing piece with
  | nil =>
    rw [List.splitOn_nil, List.mem_singleton] at h
    rw [h]
    exact List.not_mem_nil
  | cons x s ih =>
    rw [List.splitOn, List.splitOnP_cons_eq_if_modifyHead] at h
    split at h
    case isTrue =>
      rcases List.mem_cons.mp h with rfl | h
      · exact List.not_mem_nil
      · exact ih h
    case isFalse hx =>
      have hxc : c ≠ x := fun heq => hx (beq_iff_eq.mpr heq.symm)
      rw [← List.splitOn] at h
      cases hs : s.splitOn c with
      | nil => exact absurd hs (List.splitOn_ne_nil c s)
      | cons first rest =>
        rw [hs, List.modifyHead_cons] at h
        rcases List.mem_cons.mp h with rfl | h
        · exact List.not_mem_cons_of_ne_of_not_mem hxc (ih (by rw [hs]; exact List.mem_cons_self))
        · exact ih (by rw [hs]; exact List.mem_cons_of_mem _ h)

/-- What `trim` leaves is part of what there was. -/
theorem mem_of_mem_trim {c : Char} {s : List Char} (h : c ∈ trim s) : c ∈ s := by
  obtain ⟨a, b, hs, -, -⟩ := exists_trim s
  rw [hs]
  exact List.mem_append_left _ (List.mem_append_right _ h)

theorem writable_splitCsv (s : Option (List Char)) : ∀ x ∈ splitCsv s, CsvItem x := by
  intro x hx
  cases s with
  | none => exact absurd hx List.not_mem_nil
  | some v =>
    obtain ⟨hmap, hne⟩ := List.mem_filter.mp hx
    obtain ⟨piece, hpiece, rfl⟩ := List.mem_map.mp hmap
    exact ⟨of_decide_eq_true hne, fun hc => notMem_of_mem_splitOn hpiece (mem_of_mem_trim hc),
      trim_trim piece⟩

theorem splitCsv_join {xs : List (List Char)} (h : ∀ x ∈ xs, CsvItem x) :
    splitCsv (joinCsv xs) = xs := by
  unfold joinCsv
  split
  case isTrue hnil =>
    rw [hnil]
    rfl
  case isFalse hne =>
    have hsplit := List.splitOn_intercalate ',' (fun x hx => (h x hx).2.1) hne
    have htrim : xs.map trim = xs := by
      conv_rhs => rw [← List.map_id xs]
      exact List.map_congr_left fun x hx => (h x hx).2.2
    rw [splitCsv, hsplit, htrim, List.filter_eq_self]
    exact fun x hx => decide_eq_true (h x hx).1

/-! ## Kinds -/

theorem parseUnsigned_toDigits {bits n : ℕ} (h : n < 2 ^ bits) :
    parseUnsigned bits (Nat.toDigits 10 n) = some n := by
  refine parseUnsigned_eq_some_iff.mpr ⟨Nat.toDigits 10 n, Or.inl rfl,
    ⟨Nat.toDigits_ne_nil, fun c hc => ?_⟩, Nat.ofDigitChars_ten_toDigits, h⟩
  exact Nat.isDigit_of_mem_toDigits (by decide) (by decide) hc

theorem csvItem_toDigits (n : ℕ) : CsvItem (Nat.toDigits 10 n) := by
  have hdigit : ∀ c ∈ Nat.toDigits 10 n, c.isDigit = true := fun c hc =>
    Nat.isDigit_of_mem_toDigits (by decide) (by decide) hc
  refine ⟨Nat.toDigits_ne_nil, fun hc => ?_, trim_of_no_blank fun c hc => ?_⟩
  · exact absurd (hdigit _ hc) (by decide)
  · have hc := hdigit c hc
    simp only [Char.isDigit, Bool.and_eq_true, decide_eq_true_eq, ge_iff_le,
      UInt32.le_iff_toNat_le] at hc
    obtain ⟨hlow, hhigh⟩ : 48 ≤ c.toNat ∧ c.toNat ≤ 57 := hc
    simp only [isWhitespace, Bool.or_eq_false_iff, Bool.and_eq_false_iff, decide_eq_false_iff_not]
    omega

theorem splitKinds_join {ks : List ℕ} (h : ∀ k ∈ ks, k < 2 ^ 16) :
    splitKinds (joinCsv (ks.map (Nat.toDigits 10))) = ks := by
  have hitems : ∀ x ∈ ks.map (Nat.toDigits 10), CsvItem x := by
    intro x hx
    obtain ⟨k, -, rfl⟩ := List.mem_map.mp hx
    exact csvItem_toDigits k
  rw [splitKinds, splitCsv_join hitems, List.filterMap_map]
  calc ks.filterMap _ = ks.filterMap some :=
        List.filterMap_congr fun k hk => parseUnsigned_toDigits (h k hk)
    _ = ks := List.filterMap_some

theorem splitKinds_lt (s : Option (List Char)) : ∀ k ∈ splitKinds s, k < 2 ^ 16 := by
  intro k hk
  obtain ⟨x, -, hx⟩ := List.mem_filterMap.mp hk
  obtain ⟨ds, -, -, -, hlt⟩ := parseUnsigned_eq_some_iff.mp hx
  exact hlt

/-! ## Queries -/

namespace SearchFilterDto

/-- The lists that `GET /search` has parameters for. -/
def lists (d : SearchFilterDto) : List (List (List Char)) :=
  [d.authors, d.tagT, d.tagG, d.hosts, d.nip05]

/-- The query string of a body, its other tags left out. -/
def toParams (d : SearchFilterDto) : SearchParams where
  q := d.search
  kind := joinCsv (d.kinds.map (Nat.toDigits 10))
  author := joinCsv d.authors
  tag := joinCsv d.tagT
  since := d.since
  til := d.til
  lang := d.lang
  site := joinCsv d.hosts
  nip05 := joinCsv d.nip05
  geo := joinCsv d.tagG
  limit := d.limit

/-- What a query string can ask. -/
structure Writable (d : SearchFilterDto) : Prop where
  tags : d.tagE = [] ∧ d.tagP = [] ∧ d.tagA = [] ∧ d.tagD = []
  items : ∀ xs ∈ d.lists, ∀ x ∈ xs, CsvItem x
  kinds : ∀ k ∈ d.kinds, k < 2 ^ 16

theorem toFilter_toParams {d : SearchFilterDto} (h : d.Writable) :
    d.toParams.toFilter = d.toFilter := by
  obtain ⟨⟨he, hp, ha, hd⟩, hitems, hkinds⟩ := h
  simp only [lists, List.forall_mem_cons] at hitems
  obtain ⟨hauthors, htagT, htagG, hhosts, hnip05, -⟩ := hitems
  simp only [SearchParams.toFilter, toParams, toFilter, splitCsv_join hauthors,
    splitKinds_join hkinds, splitCsv_join htagT, splitCsv_join htagG, splitCsv_join hhosts,
    splitCsv_join hnip05, he, hp, ha, hd]
  rfl

theorem writable_of_toFilter {d : SearchFilterDto} {p : SearchParams}
    (h : p.toFilter = d.toFilter) : d.Writable := by
  refine ⟨⟨?_, ?_, ?_, ?_⟩, ?_, ?_⟩
  · exact (congrArg SearchFilter.tagE h).symm
  · exact (congrArg SearchFilter.tagP h).symm
  · exact (congrArg SearchFilter.tagA h).symm
  · exact (congrArg SearchFilter.tagD h).symm
  · have hauthors : splitCsv p.author = d.authors := congrArg SearchFilter.authors h
    have htagT : splitCsv p.tag = d.tagT := congrArg SearchFilter.tagT h
    have htagG : splitCsv p.geo = d.tagG := congrArg SearchFilter.tagG h
    have hhosts : splitCsv p.site = d.hosts := congrArg SearchFilter.hosts h
    have hnip05 : splitCsv p.nip05 = d.nip05 := congrArg SearchFilter.nip05 h
    simp only [lists, ← hauthors, ← htagT, ← htagG, ← hhosts, ← hnip05, List.forall_mem_cons]
    exact ⟨writable_splitCsv _, writable_splitCsv _, writable_splitCsv _, writable_splitCsv _,
      writable_splitCsv _, List.forall_mem_nil _⟩
  · have hkinds : splitKinds p.kind = d.kinds := congrArg SearchFilter.kinds h
    rw [← hkinds]
    exact splitKinds_lt _

/-- **What `GET /search` can ask.** A body of `POST /search` can be asked in a query string if and
only if it has no `e`, `p`, `a` and `d` tags, its kinds are of 16 bits, and no item of its lists is
empty, has a comma or has a blank at an end. Its items joined with commas then ask it: the answer is
the same, whatever is indexed and however the search runs. -/
theorem get_asks_iff (d : SearchFilterDto) :
    ((∃ p : SearchParams, p.toFilter = d.toFilter) ↔ d.Writable) ∧
      (d.Writable → ∀ {ε σ ι J : Type} (ctx : SearchContext ε σ)
        (archive : Option (ArchiveState ι J)) (root : Root) (reg : ShardRegistry) (now : ℕ) (ws : List ℕ),
        SearchRequest.serve ctx archive root reg now ws (.get d.toParams) =
          SearchRequest.serve ctx archive root reg now ws (.post d)) := by
  refine ⟨⟨?_, fun h => ⟨d.toParams, toFilter_toParams h⟩⟩, fun h => ?_⟩
  · rintro ⟨p, hp⟩
    exact writable_of_toFilter hp
  · intro ε σ ι J ctx archive root reg now ws
    show runSearch ctx archive root reg d.toParams.toFilter now ws = _
    rw [toFilter_toParams h]
    rfl

end SearchFilterDto

end NostrSearch.Server
