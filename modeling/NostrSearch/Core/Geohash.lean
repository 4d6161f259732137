import NostrSearch.Core.Findable
import NostrSearch.Core.Trim

/-!
# Geohashes

A cell is a prefix of the cells inside it, and a document has the prefixes of its geohashes as terms,
from two characters to nine. A query is looked up as it is, however long: past the ninth character
nothing is found, not even the geohash of the event itself. A `geo:` token is trimmed like a tag
value, a `tag_g` value is not (`containment_iff`).
-/

namespace NostrSearch.Core

open QueryPlanner

/-! ## Cells -/

/-- A geohash without the blanks around it, in lower case. -/
def geohashForm (lower : List Char → List Char) (g : List Char) : List Char := lower (trim g)

/-- Letters and digits of ASCII, one at least. -/
def IsCell (g : List Char) : Prop := g ≠ [] ∧ ∀ c ∈ g, c.toNat < 128 ∧ c.isAlphanum = true

variable {ε : Type} (p : QueryPlanner ε) (profile : String → Option (String → Option (List Char)))

/-- A geohash of the event is in the cell. -/
def Inside (ev : NostrEvent) (q : List Char) : Prop :=
  ∃ v ∈ ev.tagChars "g", IsCell (geohashForm p.lower v) ∧
    geohashForm p.lower q <+: geohashForm p.lower v

/-- The filter with one `tag_g` value. -/
def cellFilter (q : List Char) : SearchFilter := { SearchFilter.default with tagG := [q] }

/-- The filter with one `geo:` token. -/
def geoFilter (q : List Char) : SearchFilter := ofToken ("geo:".toList ++ q)

/-! ## The terms of a geohash -/

/-- The terms are the prefixes of two to nine characters. -/
theorem mem_geohashPrefixes {lower : List Char → List Char} {g t : List Char} :
    t ∈ geohashPrefixes lower g ↔
      IsCell (geohashForm lower g) ∧ t <+: geohashForm lower g ∧ 2 ≤ t.length ∧ t.length ≤ 9 := by
  unfold geohashPrefixes geohashForm
  dsimp only
  obtain ⟨f, hf⟩ : ∃ f, lower (trim g) = f := ⟨_, rfl⟩
  rw [hf]
  have hcell : IsCell f ↔ ¬ (f = [] ∨ ¬ f.all (fun c => c.toNat < 128 ∧ c.isAlphanum)) := by
    rw [not_or, not_not, List.all_eq_true]
    simp only [decide_eq_true_eq]
    rfl
  by_cases h : IsCell f
  · rw [if_neg (hcell.mp h), and_iff_right h, List.mem_map]
    have hmin : MIN_GEOHASH_PRECISION = 2 := rfl
    have hmax : MAX_GEOHASH_PRECISION = 9 := rfl
    rw [hmin, hmax]
    constructor
    · rintro ⟨n, hn, rfl⟩
      obtain ⟨i, hi, rfl⟩ := List.mem_range'.mp hn
      rw [List.length_take] at hi
      refine ⟨?_, ?_⟩
      · rw [List.take_take]
        exact List.take_prefix _ _
      · rw [List.length_take, List.length_take]
        omega
    · rintro ⟨hpre, htwo, hnine⟩
      have hlen := hpre.length_le
      refine ⟨t.length, List.mem_range'.mpr ⟨t.length - 2, ?_, by omega⟩, ?_⟩
      · rw [List.length_take]
        omega
      · rw [List.take_take, min_eq_left hnine]
        exact (List.prefix_iff_eq_take.mp hpre).symm
  · rw [if_pos (not_not.mp fun hnot => h (hcell.mpr hnot))]
    exact iff_of_false List.not_mem_nil fun hand => h hand.1

theorem text_tagG (rules : TextRules) (ev : NostrEvent) (wotTier : ℕ) (lang : Option (List Char)) :
    (toDocument rules ev wotTier lang).text .tagG =
      (ev.tagChars "g").flatMap (geohashPrefixes rules.lower) := by
  have hprofile : (if ev.kind = 0 then rules.profile ev.content else none) = profileOf rules ev :=
    rfl
  unfold toDocument
  rw [hprofile]
  cases profileOf rules ev with
  | none =>
    cases ev.isTextKind <;>
      simp [Document.text_addTexts, Document.text_addText, text_addUrls]
  | some p =>
    cases ev.isTextKind <;>
      simp [Document.text_addTexts, Document.text_addText, text_addUrls, text_addProfile]

/-! ## What the filters match -/

variable {p profile}

/-- A cell of the event's geohashes, of two to nine characters. -/
theorem mem_terms_tagG {ev : NostrEvent} {wotTier : ℕ} {lang : Option (List Char)}
    {t : List Char} :
    t ∈ (toDocument (rulesOf p profile) ev wotTier lang).terms .tagG ↔
      ∃ v ∈ ev.tagChars "g", IsCell (geohashForm p.lower v) ∧ t <+: geohashForm p.lower v ∧
        2 ≤ t.length ∧ t.length ≤ 9 := by
  unfold Document.terms
  rw [List.mem_filter, text_tagG, List.mem_flatMap]
  have hterms : (∃ v ∈ ev.tagChars "g", t ∈ geohashPrefixes (rulesOf p profile).lower v) ↔
      ∃ v ∈ ev.tagChars "g", IsCell (geohashForm p.lower v) ∧ t <+: geohashForm p.lower v ∧
        2 ≤ t.length ∧ t.length ≤ 9 :=
    exists_congr fun v => and_congr_right fun _ => mem_geohashPrefixes
  rw [hterms]
  refine and_iff_left_of_imp fun h => decide_eq_true ?_
  obtain ⟨v, -, hcell, hpre, -, hnine⟩ := h
  have hascii : ∀ c ∈ t, c.toNat < 128 := fun c hc => (hcell.2 c (hpre.subset hc)).1
  rw [byteLen_of_ascii hascii]
  exact hnine.trans (by decide)

theorem matched_cellFilter {ev : NostrEvent} {wotTier : ℕ} {lang : Option (List Char)}
    {q : List Char} :
    p.Matched (cellFilter q) (toDocument (rulesOf p profile) ev wotTier lang) ↔
      ∃ v ∈ ev.tagChars "g", IsCell (geohashForm p.lower v) ∧ p.lower q <+: geohashForm p.lower v ∧
        2 ≤ (p.lower q).length ∧ (p.lower q).length ≤ 9 := by
  rw [matched_pushTag .tagG .lower rfl, ← mem_terms_tagG]
  constructor
  · rintro ⟨n, hn, hmem⟩
    cases hn
    exact hmem
  · exact fun hmem => ⟨_, rfl, hmem⟩

theorem matched_geoFilter {ev : NostrEvent} {wotTier : ℕ} {lang : Option (List Char)}
    {q : List Char} (hq : ∀ c ∈ q, isWhitespace c = false) :
    p.Matched (geoFilter q) (toDocument (rulesOf p profile) ev wotTier lang) ↔
      ∃ v ∈ ev.tagChars "g", IsCell (geohashForm p.lower v) ∧
        geohashForm p.lower q <+: geohashForm p.lower v ∧
          2 ≤ (geohashForm p.lower q).length ∧ (geohashForm p.lower q).length ≤ 9 := by
  have hword : ∀ c ∈ "geo:".toList ++ q, isWhitespace c = false := by
    intro c hc
    rcases List.mem_append.mp hc with hc | hc
    · have hall : ∀ x ∈ "geo:".toList, isWhitespace x = false :=
        List.all_iff_forall_prop.mp (by decide)
      exact hall c hc
    · exact hq c hc
  have htoken : "geo:".toList ++ q ∈ tokens (geoFilter q) := by
    have hsplit : splitWhitespaceFrom [] ("geo:".toList ++ q ++ []) = _ :=
      splitWhitespaceFrom_append hword []
    rw [List.append_nil, List.nil_append, splitWhitespaceFrom, if_neg (by rintro ⟨⟩)] at hsplit
    exact List.mem_of_mem_head? (by rw [tokens]; exact congrArg List.head? hsplit)
  have hread := p.readFilter_ofToken htoken (show operatorOf _ = some (.geo q) from rfl)
  have hclauses : p.clauses (geoFilter q) =
      [.ok (termQuery .tagG (geohashForm p.lower q))] := by
    unfold clauses sinceOf tilOf geoFilter
    rw [hread]
    rfl
  rw [matched_iff, hclauses, List.forall_mem_singleton]
  constructor
  · rintro ⟨_, hclause, hmem⟩
    cases hclause
    exact mem_terms_tagG.mp (of_decide_eq_true hmem)
  · exact fun h => ⟨_, rfl, decide_eq_true (mem_terms_tagG.mpr h)⟩

/-! ## Containment -/

/-- A letter or a digit is no blank. -/
theorem no_blank_of_cell {s : List Char} (h : IsCell s) {t : List Char} (ht : t <+: s) :
    ∀ c ∈ t, isWhitespace c = false := by
  intro c hc
  obtain ⟨hascii, halnum⟩ := h.2 c (ht.subset hc)
  have hall : ∀ n < 128, (Char.ofNat n).isAlphanum = true →
      isWhitespace (Char.ofNat n) = false := by decide
  exact of_ascii (P := fun c => c.isAlphanum = true → isWhitespace c = false) hall hascii halnum

/-- Lowercase that is a term has been trimmed. -/
theorem trim_of_lower_term {lower : List Char → List Char}
    (hblank : ∀ s, ∀ c ∈ s, isWhitespace c = true → c ∈ lower s) {q f : List Char} (hf : IsCell f)
    (h : lower q <+: f) : trim q = q := by
  have hnone : ∀ c ∈ q, isWhitespace c = false := by
    intro c hc
    by_contra hwhite
    rw [Bool.not_eq_false] at hwhite
    have hmem := hblank q c hc hwhite
    rw [no_blank_of_cell hf h c hmem] at hwhite
    cases hwhite
  exact trim_of_no_blank hnone

/-- A match of the cell, where its length is between two and nine, is a match. -/
theorem inside_bounded_iff {ev : NostrEvent} {q : List Char} :
    (∃ v ∈ ev.tagChars "g", IsCell (geohashForm p.lower v) ∧
      geohashForm p.lower q <+: geohashForm p.lower v ∧
        2 ≤ (geohashForm p.lower q).length ∧ (geohashForm p.lower q).length ≤ 9) ↔
      Inside p ev q ∧ 2 ≤ (geohashForm p.lower q).length ∧ (geohashForm p.lower q).length ≤ 9 := by
  unfold Inside
  constructor
  · rintro ⟨v, hv, hcell, hpre, hlen⟩
    exact ⟨⟨v, hv, hcell, hpre⟩, hlen⟩
  · rintro ⟨⟨v, hv, hcell, hpre⟩, hlen⟩
    exact ⟨v, hv, hcell, hpre, hlen⟩

/-- **Containment.** Where a cell has an event in it, `geo:` finds the event if and only if the cell
has two to nine characters, and `tag_g` if besides it has no blanks around it. -/
theorem containment_iff
    (hblank : ∀ s, ∀ c ∈ s, isWhitespace c = true → c ∈ p.lower s) (ev : NostrEvent)
    (wotTier : ℕ) (lang : Option (List Char)) (q : List Char) :
    ((∀ c ∈ q, isWhitespace c = false) →
      ((p.Matched (geoFilter q) (toDocument (rulesOf p profile) ev wotTier lang) ↔
          Inside p ev q) ↔
        (Inside p ev q → 2 ≤ (geohashForm p.lower q).length ∧
          (geohashForm p.lower q).length ≤ 9))) ∧
      ((p.Matched (cellFilter q) (toDocument (rulesOf p profile) ev wotTier lang) ↔
          Inside p ev q) ↔
        (Inside p ev q → 2 ≤ (geohashForm p.lower q).length ∧
          (geohashForm p.lower q).length ≤ 9 ∧ trim q = q)) := by
  constructor
  · intro hq
    rw [matched_geoFilter hq, inside_bounded_iff]
    tauto
  · have hmatched : p.Matched (cellFilter q) (toDocument (rulesOf p profile) ev wotTier lang) ↔
        (Inside p ev q ∧ 2 ≤ (geohashForm p.lower q).length ∧
          (geohashForm p.lower q).length ≤ 9) ∧ trim q = q := by
      rw [matched_cellFilter, ← inside_bounded_iff]
      constructor
      · rintro ⟨v, hv, hcell, hpre, hlen⟩
        have htrim := trim_of_lower_term hblank hcell hpre
        refine ⟨⟨v, hv, hcell, ?_⟩, htrim⟩
        rw [geohashForm, htrim]
        exact ⟨hpre, hlen⟩
      · rintro ⟨⟨v, hv, hcell, hpre, hlen⟩, htrim⟩
        rw [geohashForm, htrim] at hpre hlen
        exact ⟨v, hv, hcell, hpre, hlen⟩
    rw [hmatched]
    tauto

/-- ASCII lowercase leaves blanks as they are. -/
theorem blank_mem_asciiLower {s : List Char} {c : Char} (hc : c ∈ s)
    (hblank : isWhitespace c = true) : c ∈ asciiLower s := by
  have hsame : c.toLower = c := by
    unfold Char.toLower
    rw [dif_neg]
    rintro ⟨hlow, hhigh⟩
    have hle : 65 ≤ c.toNat := UInt32.le_iff_toNat_le.mp hlow
    have hge : c.toNat ≤ 90 := UInt32.le_iff_toNat_le.mp hhigh
    unfold isWhitespace at hblank
    simp only [Bool.or_eq_true, Bool.and_eq_true, decide_eq_true_eq] at hblank
    omega
  have hmem := List.mem_map_of_mem (f := Char.toLower) hc
  rwa [hsame] at hmem

/-- The cell of the test is found. -/
theorem cell_is_found :
    plain.Matched (cellFilter "u4pruy".toList)
      (toDocument (rulesOf plain fun _ => none) (tagged "g" "u4pruydqqvj") 0 none) := by
  have hinside : Inside plain (tagged "g" "u4pruydqqvj") "u4pruy".toList :=
    ⟨"u4pruydqqvj".toList, by decide, ⟨by decide, List.all_iff_forall_prop.mp (by decide)⟩,
      by decide⟩
  exact ((containment_iff (fun s c hc => blank_mem_asciiLower hc) _ 0 none "u4pruy".toList).2.mpr
    fun _ => by decide).mpr hinside

/-- An event is not found by its own geohash of eleven characters, and with a blank behind it the
cell is not found either. -/
theorem own_geohash_not_found :
    (Inside plain (tagged "g" "u4pruydqqvj") "u4pruydqqvj".toList ∧
      ¬ plain.Matched (cellFilter "u4pruydqqvj".toList)
        (toDocument (rulesOf plain fun _ => none) (tagged "g" "u4pruydqqvj") 0 none) ∧
      ¬ plain.Matched (geoFilter "u4pruydqqvj".toList)
        (toDocument (rulesOf plain fun _ => none) (tagged "g" "u4pruydqqvj") 0 none)) ∧
    Inside plain (tagged "g" "u4pruydqqvj") "u4pruy ".toList ∧
      ¬ plain.Matched (cellFilter "u4pruy ".toList)
        (toDocument (rulesOf plain fun _ => none) (tagged "g" "u4pruydqqvj") 0 none) := by
  have hcell : IsCell (geohashForm plain.lower "u4pruydqqvj".toList) :=
    ⟨by decide, List.all_iff_forall_prop.mp (by decide)⟩
  refine ⟨⟨⟨_, List.mem_cons_self, hcell, by decide⟩, ?_, ?_⟩,
    ⟨_, List.mem_cons_self, hcell, by decide⟩, ?_⟩
  · rw [matched_cellFilter]
    rintro ⟨v, -, -, -, -, hnine⟩
    revert hnine
    decide
  · rw [matched_geoFilter (List.all_iff_forall_prop.mp (by decide))]
    rintro ⟨v, -, -, -, -, hnine⟩
    revert hnine
    decide
  · rw [matched_cellFilter]
    rintro ⟨v, -, hcell, hpre, -⟩
    have hspace := no_blank_of_cell hcell hpre ' ' (by decide)
    revert hspace
    decide

end NostrSearch.Core
