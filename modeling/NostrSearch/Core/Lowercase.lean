import NostrSearch.Core.RelayUrl

/-!
# Lowercase

What is relied on of `to_lowercase` where text is taken apart around it. Each character becomes some
characters of its own, and those that have no case stay what they are: text in lowercase has its
blanks and its separators where the text had them.
-/

namespace NostrSearch.Core

/-- A blank, a digit or a separator, which has no case and is the lowercase of nothing else. -/
def caseless (c : Char) : Bool := isWhitespace c || c.isDigit || c = '-' || c = ':' || c = '@'

/-- What a character can become. -/
structure Becomes (c : Char) (block : List Char) : Prop where
  ne_nil : block ≠ []
  keeps : caseless c = true → block = [c]
  cased : caseless c = false → ∀ d ∈ block, caseless d = false

/-- What is relied on. -/
structure Lowercases (toLowercase : List Char → List Char) : Prop where
  fixed : LowerFixed toLowercase
  blocks : ∀ s, ∃ blocks, List.Forall₂ Becomes s blocks ∧ toLowercase s = blocks.flatten

section Blocks

variable {s p : List Char} {blocks : List (List Char)} {c : Char}

/-- What has no case cannot begin within the block of a cased character. -/
theorem infix_of_infix_append {block rest : List Char} (hblock : ∀ d ∈ block, caseless d = false)
    (hp : ∀ d ∈ p, caseless d = true) (hne : p ≠ []) (h : p <:+: block ++ rest) :
    p <:+: rest := by
  induction block with
  | nil => exact h
  | cons d block ih =>
    rw [List.cons_append, List.infix_cons_iff] at h
    rcases h with h | h
    · cases p with
      | nil => exact absurd rfl hne
      | cons e p =>
        rw [List.cons_prefix_cons] at h
        have he := hp e List.mem_cons_self
        rw [h.1, hblock d List.mem_cons_self] at he
        cases he
    · exact ih (fun e he => hblock e (List.mem_cons_of_mem d he)) h

theorem prefix_flatten_iff (h : List.Forall₂ Becomes s blocks) (hp : ∀ d ∈ p, caseless d = true) :
    p <+: blocks.flatten ↔ p <+: s := by
  induction p generalizing s blocks with
  | nil => simp
  | cons e p ih =>
    have he := hp e List.mem_cons_self
    cases h with
    | nil => rfl
    | @cons d block s blocks hd hrest =>
      rw [List.flatten_cons]
      cases hcase : caseless d with
      | true =>
        rw [hd.keeps hcase, List.singleton_append, List.cons_prefix_cons, List.cons_prefix_cons,
          ih hrest fun x hx => hp x (List.mem_cons_of_mem e hx)]
      | false =>
        -- neither begins with a caseless character
        obtain ⟨x, block', rfl⟩ := List.exists_cons_of_ne_nil hd.ne_nil
        have hx := hd.cased hcase x List.mem_cons_self
        rw [List.cons_append, List.cons_prefix_cons, List.cons_prefix_cons]
        apply iff_of_false
        · rintro ⟨rfl, -⟩
          rw [hx] at he
          cases he
        · rintro ⟨rfl, -⟩
          rw [hcase] at he
          cases he

theorem infix_of_infix_flatten (h : List.Forall₂ Becomes s blocks)
    (hp : ∀ d ∈ p, caseless d = true) (hne : p ≠ []) (hinf : p <:+: blocks.flatten) :
    p <:+: s := by
  induction h with
  | nil => exact hinf
  | @cons d block s blocks hd hrest ih =>
    rw [List.flatten_cons] at hinf
    cases hcase : caseless d with
    | true =>
      rw [hd.keeps hcase, List.singleton_append, List.infix_cons_iff] at hinf
      rcases hinf with hpre | hinf
      · have hall : List.Forall₂ Becomes (d :: s) ([d] :: blocks) :=
          .cons (hd.keeps hcase ▸ hd) hrest
        exact ((prefix_flatten_iff hall hp).mp hpre).isInfix
      · exact (ih hinf).trans (List.suffix_cons d s).isInfix
    | false =>
      have hrest' := infix_of_infix_append (hd.cased hcase) hp hne hinf
      exact (ih hrest').trans (List.suffix_cons d s).isInfix

/-- A caseless character that ends the text ended it before. -/
theorem getLast?_of_getLast?_flatten (h : List.Forall₂ Becomes s blocks)
    (hc : caseless c = true) (hlast : blocks.flatten.getLast? = some c) : s.getLast? = some c := by
  induction h with
  | nil => exact hlast
  | @cons d block s blocks hd hrest ih =>
    rw [List.flatten_cons] at hlast
    cases hrest with
    | nil =>
      rw [List.flatten_nil, List.append_nil] at hlast
      cases hcase : caseless d with
      | true =>
        rw [hd.keeps hcase] at hlast
        exact hlast
      | false =>
        have hfalse := hd.cased hcase c (List.mem_of_getLast? hlast)
        rw [hc] at hfalse
        cases hfalse
    | @cons e block' s' blocks' he hrest' =>
      have hne : (block' :: blocks').flatten ≠ [] := by
        rw [List.flatten_cons]
        exact List.append_ne_nil_of_left_ne_nil he.ne_nil _
      rw [List.getLast?_append_of_ne_nil _ hne] at hlast
      rw [List.getLast?_cons_cons]
      exact ih hlast

end Blocks

namespace Lowercases

variable {lower : List Char → List Char} {s p : List Char}

theorem prefix_iff (h : Lowercases lower) (hp : ∀ d ∈ p, caseless d = true) :
    p <+: lower s ↔ p <+: s := by
  obtain ⟨blocks, hblocks, heq⟩ := h.blocks s
  rw [heq]
  exact prefix_flatten_iff hblocks hp

theorem infix_of_infix (h : Lowercases lower) (hp : ∀ d ∈ p, caseless d = true) (hne : p ≠ [])
    (hinf : p <:+: lower s) : p <:+: s := by
  obtain ⟨blocks, hblocks, heq⟩ := h.blocks s
  rw [heq] at hinf
  exact infix_of_infix_flatten hblocks hp hne hinf

/-- Text without blanks at its ends has none in lowercase. -/
theorem trim_lower (h : Lowercases lower) (hs : trim s = s) : trim (lower s) = lower s := by
  obtain ⟨blocks, hblocks, heq⟩ := h.blocks s
  rw [trim_eq_self_iff] at hs ⊢
  have hblank : ∀ c, isWhitespace c = true → caseless c = true := by
    intro c hc
    simp [caseless, hc]
  constructor
  · intro c hc
    by_contra hws
    have hws : isWhitespace c = true := by simpa using hws
    -- as a prefix of one character
    have hpre : [c] <+: lower s := by
      cases hl : lower s with
      | nil =>
        rw [hl] at hc
        cases hc
      | cons d l =>
        rw [hl, List.head?_cons, Option.some.injEq] at hc
        rw [hc, List.cons_prefix_cons]
        exact ⟨rfl, List.nil_prefix⟩
    rw [h.prefix_iff (by simpa using hblank c hws)] at hpre
    obtain ⟨l, hl⟩ := hpre
    have hhead := hs.1 c (by rw [← hl]; rfl)
    rw [hws] at hhead
    cases hhead
  · intro c hc
    by_contra hws
    have hws : isWhitespace c = true := by simpa using hws
    rw [heq] at hc
    have hlast := hs.2 c (getLast?_of_getLast?_flatten hblocks (hblank c hws) hc)
    rw [hws] at hlast
    cases hlast

/-- Text made of the characters of text in lowercase. -/
theorem lower_of_prefix (h : Lowercases lower) (hp : p <+: lower s) : lower p = p :=
  h.fixed s p fun _ hc => hp.subset hc

end Lowercases

theorem becomes_toLower (c : Char) : Becomes c [c.toLower] := by
  have hall : ∀ n < 128, (caseless (Char.ofNat n) = true → (Char.ofNat n).toLower = Char.ofNat n) ∧
      (caseless (Char.ofNat n) = false → caseless (Char.ofNat n).toLower = false) := by
    decide +kernel
  have hc : (caseless c = true → c.toLower = c) ∧
      (caseless c = false → caseless c.toLower = false) := by
    by_cases h : c.toNat < 128
    · exact of_ascii (P := fun c => (caseless c = true → c.toLower = c) ∧
        (caseless c = false → caseless c.toLower = false)) hall h
    · rw [toLower_of_not_ascii h]
      exact ⟨fun _ => rfl, id⟩
  constructor
  · exact List.cons_ne_nil _ _
  · intro h
    rw [hc.1 h]
  · intro h d hd
    rw [List.mem_singleton.mp hd]
    exact hc.2 h

theorem asciiLower_lowercases : Lowercases asciiLower where
  fixed := asciiLower_fixed
  blocks s := by
    refine ⟨s.map fun c => [c.toLower], ?_, ?_⟩
    · rw [List.forall₂_map_right_iff]
      exact List.forall₂_same.mpr fun c _ => becomes_toLower c
    · rw [asciiLower, ← List.flatMap_def, List.map_eq_flatMap]

end NostrSearch.Core
