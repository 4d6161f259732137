import NostrSearch.Core.Operators

/-!
# What is indexed can be found

Each exact field is folded once when an event is indexed and once when it is asked for. For most
fields it is the same function. A referenced event or pubkey is indexed as it stands unless it is
hex, while the planner also decodes NIP-19 entities and, for pubkeys, trims and lowercases; a value
the two leave in different forms is not found under its own name.
-/

namespace NostrSearch.Core

open QueryPlanner

/-! ## Hex -/

theorem toNat_of_isHexdigit {c : Char} (h : isHexdigit c = true) : c.toNat < 128 := by
  unfold isHexdigit at h
  simp only [Bool.or_eq_true, Bool.and_eq_true, decide_eq_true_eq, Char.le_def,
    UInt32.le_iff_toNat_le] at h
  have hf : c.toNat ≤ 57 ∨ c.toNat ≤ 102 ∨ c.toNat ≤ 70 := by
    rcases h with (⟨-, h⟩ | ⟨-, h⟩) | ⟨-, h⟩
    · exact Or.inl h
    · exact Or.inr (Or.inl h)
    · exact Or.inr (Or.inr h)
  omega

/-- What a hex digit is not, and what its lowercase is. -/
theorem hexdigit_facts {c : Char} (h : isHexdigit c = true) :
    isWhitespace c = false ∧ isHexdigit c.toLower = true ∧ c.toLower ≠ 'n' := by
  have hall : ∀ n < 128, isHexdigit (Char.ofNat n) = true →
      isWhitespace (Char.ofNat n) = false ∧ isHexdigit (Char.ofNat n).toLower = true ∧
        (Char.ofNat n).toLower ≠ 'n' := by decide
  have hc := hall c.toNat (toNat_of_isHexdigit h)
  rw [Char.ofNat_toNat] at hc
  exact hc h

theorem trim_hex {s : List Char} (h : s.all isHexdigit = true) : trim s = s := by
  have hdrop : ∀ l : List Char, (∀ c ∈ l, isWhitespace c = false) → l.dropWhile isWhitespace = l := by
    intro l hl
    cases l with
    | nil => rfl
    | cons c l => rw [List.dropWhile_cons, hl c List.mem_cons_self]; rfl
  have hblank : ∀ c ∈ s, isWhitespace c = false := fun c hc =>
    (hexdigit_facts (List.all_eq_true.mp h c hc)).1
  unfold trim
  rw [hdrop s hblank, hdrop s.reverse fun c hc => hblank c (List.mem_reverse.mp hc),
    List.reverse_reverse]

theorem mem_of_mem_trim {s : List Char} {c : Char} (h : c ∈ trim s) : c ∈ s := by
  unfold trim at h
  rw [List.mem_reverse] at h
  have hdrop := List.mem_reverse.mp ((List.dropWhile_sublist _).subset h)
  exact (List.dropWhile_sublist _).subset hdrop

/-- Hex is no entity: each of the prefixes has an `n`. -/
theorem decodeHex_of_hex {s : List Char} {allowed : List (List Char)}
    (hallowed : ∀ hrp ∈ allowed, 'n' ∈ hrp) (h : s.all isHexdigit = true) :
    decodeHex s allowed = .ok none :=
  decodeHex_of_prefix fun hrp hhrp => ⟨'n', hallowed hrp hhrp, fun x hx =>
    (hexdigit_facts (List.all_eq_true.mp h x hx)).2.2⟩

/-! ## Looking a value up -/

/-- The fields a single value is looked up in. -/
inductive Lookup
  | tagT | tagE | tagP | tagA | tagD | host | nip05 | author
deriving DecidableEq

namespace Lookup

/-- The filter that has just one value. -/
def filter (v : List Char) : Lookup → SearchFilter
  | tagT => { SearchFilter.default with tagT := [v] }
  | tagE => { SearchFilter.default with tagE := [v] }
  | tagP => { SearchFilter.default with tagP := [v] }
  | tagA => { SearchFilter.default with tagA := [v] }
  | tagD => { SearchFilter.default with tagD := [v] }
  | host => { SearchFilter.default with hosts := [v] }
  | nip05 => { SearchFilter.default with nip05 := [v] }
  | author => { SearchFilter.default with authors := [v] }

end Lookup

variable {ε : Type} (p : QueryPlanner ε) (profile : String → Option (String → Option (List Char)))

/-- The planner and the indexer use one `to_lowercase`. -/
def rulesOf : TextRules := { lower := p.lower, profile := profile }

variable {p profile}

/-- A tag filter of one value looks for one term. -/
theorem matched_pushTag {filter : SearchFilter} (f : Field) {v : List Char} (norm : Norm)
    (h : p.clauses filter = p.pushTag f [v] norm) (d : Document) :
    p.Matched filter d ↔ ∃ n, norm.apply p v = .ok n ∧ n ∈ d.terms f := by
  rw [matched_iff, h, pushTag, if_neg (List.cons_ne_nil v []), List.forall_mem_singleton]
  unfold Clause.Holds
  cases hn : norm.apply p v with
  | error e =>
    have hmap : ([v].mapM fun v => norm.apply p v) = .error e := by
      rw [List.mapM_cons, hn]
      rfl
    rw [hmap]
    constructor
    · rintro ⟨q, hq, -⟩
      cases hq
    · rintro ⟨n, hn', -⟩
      cases hn'
  | ok n =>
    have hmap : ([v].mapM fun v => norm.apply p v) = .ok [n] := by
      rw [List.mapM_cons, hn]
      rfl
    have hterm : anyTerm f [n] d = decide (n ∈ d.terms f) := by
      simp [anyTerm, booleanQuery, termQuery]
    rw [hmap]
    constructor
    · rintro ⟨q, hq, hd⟩
      cases hq
      rw [hterm] at hd
      exact ⟨n, rfl, of_decide_eq_true hd⟩
    · rintro ⟨n', hn', hmem⟩
      cases hn'
      exact ⟨_, rfl, by rw [hterm]; exact decide_eq_true hmem⟩

theorem normalizeHex_of_hex {s : List Char} (h : s.all isHexdigit = true) :
    normalizeHex s = asciiLower s := if_pos h

/-- An author in hex is asked for in lower case. -/
theorem normalizeAuthor_of_hex {s : List Char} (h64 : byteLen s = 64)
    (hhex : s.all isHexdigit = true) :
    normalizeAuthor s = .ok (some (normalizeHex s)) := by
  unfold normalizeAuthor
  dsimp only
  rw [trim_hex hhex, decodeHex_of_hex (by decide) hhex, normalizeHex_of_hex hhex]
  show Except.ok (if _ then _ else _) = _
  rw [if_pos ⟨h64, hhex⟩]

/-- A note with one tag. -/
def tagged (name value : String) : NostrEvent :=
  { id := "", pubkey := "", createdAt := 1700000000, kind := 1, tags := [[name, value]],
    content := "", sig := "" }

end NostrSearch.Core
