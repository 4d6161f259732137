import NostrSearch.Core.Trim
import NostrSearch.Lib.Loop
import NostrSearch.Lib.SuffixCode

/-!
# Relay URLs

`normalize_relay_url`, with what it takes from the standard library as parameters: `toLowercase`, and
`isIp` for `parse::<IpAddr>().is_ok()`. Junk comes off the whole URL, and off what is left of it when
query and fragment are gone; the host is checked in between. What that second trim takes off stood
in front of the checks: a host with a comma behind it, before a query, passes them all and loses the
comma afterwards. That, and an address in brackets, of which the check only sees the bracket, is all
that keeps the result from being canonical (`canonical_iff`).
-/

namespace NostrSearch.Core

open NostrSearch.Lib

/-! ## Junk -/

/-- `JUNK_TAIL`. -/
def junkTail : List Char :=
  [',', ';', '|', '"', '\'', '\x60', '<', '>', '(', ')', '[', ']', '\x7b', '\x7d', '\\', '!', '*']

/-- The texts that are taken off one after the other. -/
def encodedBlanks : List (List Char) :=
  ["%20".toList, "%09".toList, "%0a".toList, "%0d".toList, "%0A".toList, "%0D".toList, "+".toList]

/-- `trim_end_matches` with a text, which is there at most so many times. -/
def trimEndFrom (pat : List Char) : ℕ → List Char → List Char
  | 0, s => s
  | n + 1, s =>
    if pat.isSuffixOf s then trimEndFrom pat n (s.take (s.length - pat.length)) else s

/-- `trim_end_matches` with a text. -/
def trimEndMatches (pat s : List Char) : List Char := trimEndFrom pat s.length s

/-- `trim_end_matches(JUNK_TAIL)`. -/
def dropJunkTail (s : List Char) : List Char := s.rdropWhile fun c => decide (c ∈ junkTail)

/-- The texts one after the other. -/
def dropEncodedBlanks (s : List Char) : List Char :=
  encodedBlanks.foldl (fun s enc => trimEndMatches enc s) s

/-- `trim_end_matches('/')`. -/
def dropSlashes (s : List Char) : List Char := s.rdropWhile fun c => decide (c = '/')

/-- A turn of the loop of `trim_junk_tail`. -/
def trimRound (s : List Char) : List Char :=
  dropSlashes (dropEncodedBlanks (dropJunkTail (trim s)))

/-- The loop is left after a turn that took nothing off. -/
def trimTurn (s : List Char) : Turn (List Char) (List Char) :=
  if trimRound s = s then .leave s else .again (trimRound s)

/-- `trim_junk_tail`. Every turn but the last takes something off. -/
def trimJunkTail (s : List Char) : List Char := (loop trimTurn (s.length + 1) s).getD s

/-! ## The URL -/

/-- What stands between two parts of `split("://")`. -/
def schemeSep : List Char := "://".toList

/-- `split("://").nth(1)`. -/
def secondPart (url : List Char) : Option (List Char) :=
  (afterFirst schemeSep url).map (beforeFirst schemeSep)

/-- What is not scraped. -/
def Blocked (isIp : List Char → Bool) (host : List Char) : Prop :=
  host = [] ∨ ".onion".toList <:+ host ∨ ".local".toList <:+ host ∨ host = "localhost".toList ∨
    isIp host = true

instance (isIp : List Char → Bool) (host : List Char) : Decidable (Blocked isIp host) :=
  inferInstanceAs (Decidable (_ ∨ _ ∨ _ ∨ _ ∨ _))

/-- `normalize_relay_url`. -/
def normalizeRelayUrl (toLowercase : List Char → List Char) (isIp : List Char → Bool)
    (raw : List Char) : Option (List Char) := do
  let url := trimJunkTail raw
  let lower := toLowercase url
  if ¬ ("wss://".toList.isPrefixOf lower ∨ "ws://".toList.isPrefixOf lower) then none
  else
    let second ← secondPart lower
    let host := (second.takeWhile fun c => c ∉ ['/', '?', '#']).takeWhile fun c => c ≠ ':'
    if Blocked isIp host then none
    else
      -- Keep scheme + host + path, drop query/fragment noise.
      let scheme := beforeFirst schemeSep lower
      let rest := second.takeWhile fun c => c ∉ ['?', '#']
      let rest := trimJunkTail rest
      if rest = [] then none else some (scheme ++ schemeSep ++ rest)

/-! ## What trimming leaves -/

/-- What is taken off the end of a URL. -/
def IsJunk (p : List Char) : Prop :=
  (∃ c, (isWhitespace c = true ∨ c ∈ junkTail ∨ c = '/') ∧ p = [c]) ∨ p ∈ encodedBlanks

/-- The string without some blanks in front and some junk at its end. -/
def Within (s t : List Char) : Prop :=
  ∃ blanks junk, s = blanks ++ t ++ junk ∧ (∀ c ∈ blanks, isWhitespace c = true) ∧
    Pieces IsJunk junk

/-- What `trim_junk_tail` makes of a string: its first blanks are gone, and all junk at its end. -/
def TrimsTo (s t : List Char) : Prop :=
  Within s t ∧ (∀ c, t.head? = some c → isWhitespace c = false) ∧ Clean IsJunk t

theorem encodedBlanks_suffixCode : ∀ p ∈ encodedBlanks, ∀ q ∈ encodedBlanks, p <:+ q → p = q := by
  decide

/-- The last character of a text that is taken off is no junk itself. -/
theorem not_junk_of_encodedBlanks : ∀ p ∈ encodedBlanks, ∀ c ∈ p,
    isWhitespace c = false ∧ c ∉ junkTail ∧ c ≠ '/' := by
  have hall : ∀ p ∈ encodedBlanks, (p.all fun c =>
      decide (isWhitespace c = false ∧ c ∉ junkTail ∧ c ≠ '/')) = true := by decide
  exact fun p hp => List.all_iff_forall_prop.mp (hall p hp)

theorem isJunk_suffixCode : SuffixCode IsJunk where
  ne_nil := by
    rintro p (⟨c, -, rfl⟩ | hp)
    · exact List.cons_ne_nil c []
    · rintro rfl
      exact absurd hp (by decide)
  eq_of_suffix := by
    rintro p q (⟨c, hc, rfl⟩ | hp) (⟨d, -, rfl⟩ | hq) hsuffix
    · exact hsuffix.eq_of_length rfl
    · obtain ⟨hblank, hjunk, hslash⟩ := not_junk_of_encodedBlanks q hq c (hsuffix.subset (by simp))
      rcases hc with hc | hc | hc
      · exact absurd hc (Bool.eq_false_iff.mp hblank)
      · exact absurd hc hjunk
      · exact absurd hc hslash
    · -- no text is empty
      refine hsuffix.eq_of_length (Nat.le_antisymm hsuffix.length_le ?_)
      refine List.length_pos_iff.mpr ?_
      rintro rfl
      exact absurd hp (by decide)
    · exact encodedBlanks_suffixCode p hp q hq hsuffix

/-! ## The steps of a turn -/

theorem sheds_rdropWhile {p : Char → Bool} (h : ∀ c, p c = true → IsJunk [c]) :
    Sheds IsJunk fun s => s.rdropWhile p := by
  intro s
  refine ⟨s.rtakeWhile p, Pieces.of_elements fun c hc => h c (List.mem_rtakeWhile_imp hc), ?_⟩
  exact List.rdropWhile_append_rtakeWhile.symm

theorem sheds_trimEndFrom {pat : List Char} (h : IsJunk pat) (n : ℕ) :
    Sheds IsJunk (trimEndFrom pat n) := by
  induction n with
  | zero => exact fun s => ⟨[], Pieces.nil, (List.append_nil s).symm⟩
  | succ n ih =>
    intro s
    rw [trimEndFrom]
    split
    case isTrue hsuffix =>
      obtain ⟨a, rfl⟩ := List.isSuffixOf_iff_suffix.mp hsuffix
      rw [List.length_append, Nat.add_sub_cancel, List.take_left]
      obtain ⟨t, hpieces, ht⟩ := ih a
      exact ⟨t ++ pat, hpieces.append (Pieces.single h), by rw [← List.append_assoc, ← ht]⟩
    case isFalse => exact ⟨[], Pieces.nil, (List.append_nil s).symm⟩

theorem sheds_trimEndMatches {pat : List Char} (h : IsJunk pat) :
    Sheds IsJunk (trimEndMatches pat) :=
  fun s => sheds_trimEndFrom h s.length s

/-- A text that stands at the end is taken off. -/
theorem trimEndMatches_eq_self {pat s : List Char} (hpat : IsJunk pat)
    (h : trimEndMatches pat s = s) : ¬ pat <:+ s := by
  rintro ⟨a, rfl⟩
  have hpos : 0 < pat.length := List.length_pos_iff.mpr (isJunk_suffixCode.ne_nil pat hpat)
  obtain ⟨n, hn⟩ : ∃ n, (a ++ pat).length = n + 1 :=
    ⟨(a ++ pat).length - 1, by rw [List.length_append]; omega⟩
  rw [trimEndMatches, hn, trimEndFrom, if_pos (List.isSuffixOf_iff_suffix.mpr ⟨a, rfl⟩),
    List.length_append, Nat.add_sub_cancel, List.take_left] at h
  have hle := (sheds_trimEndFrom hpat n).length_le a
  rw [h, List.length_append] at hle
  omega

theorem isJunk_of_blank {c : Char} (h : isWhitespace c = true) : IsJunk [c] :=
  Or.inl ⟨c, Or.inl h, rfl⟩

theorem sheds_dropJunkTail : Sheds IsJunk dropJunkTail :=
  sheds_rdropWhile fun c hc => Or.inl ⟨c, Or.inr (Or.inl (of_decide_eq_true hc)), rfl⟩

theorem sheds_dropEncodedBlanks : Sheds IsJunk dropEncodedBlanks :=
  Sheds.foldl fun _ henc => sheds_trimEndMatches (Or.inr henc)

theorem sheds_dropSlashes : Sheds IsJunk dropSlashes :=
  sheds_rdropWhile fun c hc => Or.inl ⟨c, Or.inr (Or.inr (of_decide_eq_true hc)), rfl⟩

theorem Within.refl (s : List Char) : Within s s :=
  ⟨[], [], by rw [List.nil_append, List.append_nil], nofun, Pieces.nil⟩

theorem Within.trans {s t u : List Char} (hst : Within s t) (htu : Within t u) : Within s u := by
  obtain ⟨blanks, junk, rfl, hblanks, hjunk⟩ := hst
  obtain ⟨blanks', junk', rfl, hblanks', hjunk'⟩ := htu
  exact ⟨blanks ++ blanks', junk' ++ junk, by simp only [List.append_assoc],
    List.forall_mem_append.mpr ⟨hblanks, hblanks'⟩, hjunk'.append hjunk⟩

/-- A part that is no shorter is the whole. -/
theorem Within.eq_of_length_le {s t : List Char} (h : Within s t) (hle : s.length ≤ t.length) :
    t = s := by
  obtain ⟨blanks, junk, rfl, -, -⟩ := h
  rw [List.length_append, List.length_append] at hle
  have hblanks : blanks = [] := List.eq_nil_of_length_eq_zero (by omega)
  have hjunk : junk = [] := List.eq_nil_of_length_eq_zero (by omega)
  rw [hblanks, hjunk, List.nil_append, List.append_nil]

theorem within_trim (s : List Char) : Within s (trim s) := by
  obtain ⟨blanks, b, hs, hblanks, hb⟩ := exists_trim s
  exact ⟨blanks, b, hs, hblanks, Pieces.of_elements fun c hc => isJunk_of_blank (hb c hc)⟩

theorem Within.of_sheds {f : List Char → List Char} (hf : Sheds IsJunk f) (s : List Char) :
    Within s (f s) := by
  obtain ⟨junk, hjunk, hs⟩ := hf s
  exact ⟨[], junk, by rw [List.nil_append, ← hs], nofun, hjunk⟩

/-- The steps of a turn behind the first. -/
theorem sheds_tail : Sheds IsJunk fun s => dropSlashes (dropEncodedBlanks (dropJunkTail s)) :=
  sheds_dropSlashes.comp (sheds_dropEncodedBlanks.comp sheds_dropJunkTail)

theorem within_trimRound (s : List Char) : Within s (trimRound s) :=
  (within_trim s).trans (Within.of_sheds sheds_tail (trim s))

/-- A turn that takes nothing off found nothing. -/
theorem trimRound_eq_self {s : List Char} (h : trimRound s = s) :
    (∀ c, s.head? = some c → isWhitespace c = false) ∧ Clean IsJunk s := by
  -- the trimmed string is no shorter, so it is the whole
  have htrim : trim s = s := by
    refine (within_trim s).eq_of_length_le ?_
    calc s.length = (trimRound s).length := by rw [h]
      _ ≤ (trim s).length := sheds_tail.length_le (trim s)
  obtain ⟨hfront, hback⟩ := trim_eq_self_iff.mp htrim
  rw [trimRound, htrim] at h
  obtain ⟨hrest, hslash⟩ :=
    sheds_dropSlashes.comp_eq_self (sheds_dropEncodedBlanks.comp sheds_dropJunkTail) h
  obtain ⟨hjunk, hfold⟩ := sheds_dropEncodedBlanks.comp_eq_self sheds_dropJunkTail hrest
  have henc := Sheds.foldl_eq_self (fun _ henc => sheds_trimEndMatches (Or.inr henc)) hfold
  refine ⟨hfront, ?_⟩
  rintro p (⟨c, hc, rfl⟩ | hp) ⟨a, rfl⟩
  · rcases hc with hc | hc | hc
    · exact Bool.eq_false_iff.mp (hback c (by simp)) hc
    · rw [dropJunkTail, List.rdropWhile_eq_self_iff] at hjunk
      exact hjunk (by simp) (by simpa using hc)
    · rw [dropSlashes, List.rdropWhile_eq_self_iff] at hslash
      exact hslash (by simp) (by simpa using hc)
  · exact trimEndMatches_eq_self (Or.inr hp) (henc p hp) ⟨a, rfl⟩

/-! ## The loop -/

theorem trimTurn_again {s t : List Char} (h : trimTurn s = .again t) :
    t = trimRound s ∧ trimRound s ≠ s := by
  rw [trimTurn] at h
  split at h
  case isTrue => cases h
  case isFalse hne => exact ⟨(Turn.again.inj h).symm, hne⟩

theorem trimTurn_leave {s t : List Char} (h : trimTurn s = .leave t) : t = s ∧ trimRound s = s := by
  rw [trimTurn] at h
  split at h
  case isTrue heq => exact ⟨(Turn.leave.inj h).symm, heq⟩
  case isFalse => cases h

/-- Every turn but the last makes the string shorter. -/
theorem exists_trimJunkTail (s : List Char) :
    loop trimTurn (s.length + 1) s = some (trimJunkTail s) := by
  have hshorter : ∀ s t : List Char, True → trimTurn s = .again t →
      True ∧ t.length < s.length := by
    rintro s t - h
    obtain ⟨ht, hne⟩ := trimTurn_again h
    rw [ht]
    exact ⟨trivial, lt_of_not_ge fun hle => hne ((within_trimRound s).eq_of_length_le hle)⟩
  have hturns : s.length < s.length + 1 := Nat.lt_succ_self _
  obtain ⟨t, ht⟩ := loop_ends_within List.length hshorter trivial hturns
  rw [trimJunkTail, ht, Option.getD_some]

theorem trimsTo_trimJunkTail (s : List Char) : TrimsTo s (trimJunkTail s) := by
  have hagain : ∀ a b, Within s a → trimTurn a = .again b → Within s b := by
    rintro a b ha h
    rw [(trimTurn_again h).1]
    exact ha.trans (within_trimRound a)
  have hleave : ∀ a t, Within s a → trimTurn a = .leave t → TrimsTo s t := by
    rintro a t ha h
    obtain ⟨ht, hself⟩ := trimTurn_leave h
    rw [ht]
    exact ⟨ha, trimRound_eq_self hself⟩
  exact loop_rule hagain hleave (Within.refl s) (exists_trimJunkTail s)

/-- A blank or slash in front makes no junk of what ends a string. -/
theorem Clean.append_of_last {a t : List Char} (ht : Clean IsJunk t) (hne : t ≠ [])
    (ha : ∀ c, a.getLast? = some c → isWhitespace c = true ∨ c = '/') :
    Clean IsJunk (a ++ t) := by
  rintro p hp hsuffix
  rcases List.suffix_or_suffix_of_suffix hsuffix (List.suffix_append a t) with hpt | ⟨x, rfl⟩
  · exact ht p hp hpt
  rcases List.eq_nil_or_concat x with rfl | ⟨x, c, rfl⟩
  · exact ht t hp List.suffix_rfl
  -- a piece that begins before the string has the last character before it
  rw [List.concat_eq_append] at hp hsuffix
  have hlast : a.getLast? = some c := by
    obtain ⟨y, hy⟩ := hsuffix
    rw [← List.append_assoc, List.append_left_inj, ← List.append_assoc] at hy
    rw [← hy, List.getLast?_concat]
  rcases hp with ⟨d, -, hd⟩ | hp
  · have hlen := congrArg List.length hd
    have hpos := List.length_pos_iff.mpr hne
    rw [List.length_append, List.length_append, List.length_singleton, List.length_singleton] at hlen
    omega
  · obtain ⟨hblank, -, hslash⟩ := not_junk_of_encodedBlanks _ hp c (by simp)
    rcases ha c hlast with h | h
    · exact Bool.eq_false_iff.mp hblank h
    · exact hslash h

/-- The clean string that what is trimmed off goes with. -/
theorem TrimsTo.exists_clean {s t : List Char} (h : TrimsTo s t) :
    ∃ base junk, s = base ++ junk ∧ Clean IsJunk base ∧ Pieces IsJunk junk ∧
      base.dropWhile isWhitespace = t := by
  obtain ⟨⟨blanks, junk, hs, hblanks, hjunk⟩, hhead, hclean⟩ := h
  by_cases ht : t = []
  · subst ht
    rw [List.append_nil] at hs
    have hpieces := Pieces.of_elements fun c hc => isJunk_of_blank (hblanks c hc)
    exact ⟨[], blanks ++ junk, hs, Clean.nil isJunk_suffixCode, hpieces.append hjunk, rfl⟩
  · have hlast : ∀ c, blanks.getLast? = some c → isWhitespace c = true ∨ c = '/' :=
      fun c hc => Or.inl (hblanks c (List.mem_of_getLast? hc))
    refine ⟨blanks ++ t, junk, hs, Clean.append_of_last hclean ht hlast, hjunk, ?_⟩
    rw [List.dropWhile_append_of_pos hblanks]
    cases t with
    | nil => rfl
    | cons c t => rw [List.dropWhile_cons_of_neg (Bool.eq_false_iff.mp (hhead c rfl))]

/-- **What a string is trimmed to does not depend on the order.** -/
theorem TrimsTo.unique {s t u : List Char} (ht : TrimsTo s t) (hu : TrimsTo s u) : t = u := by
  obtain ⟨base, junk, hs, hclean, hjunk, rfl⟩ := ht.exists_clean
  obtain ⟨base', junk', hs', hclean', hjunk', rfl⟩ := hu.exists_clean
  rw [Clean.unique isJunk_suffixCode hclean hclean' hjunk hjunk' (hs.symm.trans hs')]

theorem trimJunkTail_eq_iff {s t : List Char} : trimJunkTail s = t ↔ TrimsTo s t :=
  ⟨fun h => h ▸ trimsTo_trimJunkTail s, fun h => (trimsTo_trimJunkTail s).unique h⟩

/-- What was trimmed stays as it is. -/
theorem trimJunkTail_trimJunkTail (s : List Char) : trimJunkTail (trimJunkTail s) = trimJunkTail s := by
  rw [trimJunkTail_eq_iff]
  exact ⟨Within.refl _, (trimsTo_trimJunkTail s).2⟩

/-- The characters that are left were there. -/
theorem trimJunkTail_piece (s : List Char) : trimJunkTail s <:+: s := by
  obtain ⟨⟨blanks, junk, hs, -, -⟩, -, -⟩ := trimsTo_trimJunkTail s
  exact ⟨blanks, junk, hs.symm⟩

/-! ## Parts of a URL -/

theorem beforeFirst_prefix_self (sep s : List Char) : beforeFirst sep s <+: s := by
  induction s with
  | nil => exact List.prefix_rfl
  | cons c s ih =>
    rw [beforeFirst]
    split
    · exact List.nil_prefix
    · exact List.prefix_cons_inj c |>.mpr ih

/-- There is no separator before the first. -/
theorem not_infix_beforeFirst {sep : List Char} (hsep : sep ≠ []) (s : List Char) :
    ¬ sep <:+: beforeFirst sep s := by
  induction s with
  | nil =>
    intro hpiece
    exact hsep (List.infix_nil.mp hpiece)
  | cons c s ih =>
    rw [beforeFirst]
    split
    case isTrue =>
      intro hpiece
      exact hsep (List.infix_nil.mp hpiece)
    case isFalse hnot =>
      rw [List.infix_cons_iff]
      rintro (hpre | hpiece)
      · refine hnot (List.isPrefixOf_iff_prefix.mpr (hpre.trans ?_))
        exact (List.prefix_cons_inj c).mpr (beforeFirst_prefix_self sep s)
      · exact ih hpiece

theorem beforeFirst_eq_self {sep s : List Char} (h : ¬ sep <:+: s) : beforeFirst sep s = s := by
  induction s with
  | nil => rfl
  | cons c s ih =>
    rw [List.infix_cons_iff, not_or] at h
    rw [beforeFirst, if_neg (fun hpre => h.1 (List.isPrefixOf_iff_prefix.mp hpre)), ih h.2]

/-- What follows the scheme, without query and fragment. -/
def address (tail : List Char) : List Char :=
  (beforeFirst schemeSep tail).takeWhile fun c => c ∉ ['?', '#']

/-- The host of an address, without the port. -/
def hostPart (address : List Char) : List Char :=
  (address.takeWhile fun c => c ≠ '/').takeWhile fun c => c ≠ ':'

/-- The schemes of a relay. -/
def IsScheme (scheme : List Char) : Prop := scheme = "wss".toList ∨ scheme = "ws".toList

theorem IsScheme.secondPart_eq {scheme : List Char} (h : IsScheme scheme) (tail : List Char) :
    secondPart (scheme ++ schemeSep ++ tail) = some (beforeFirst schemeSep tail) ∧
      beforeFirst schemeSep (scheme ++ schemeSep ++ tail) = scheme := by
  rcases h with rfl | rfl <;>
    simp [secondPart, schemeSep, afterFirst, beforeFirst]

theorem exists_scheme_iff {url : List Char} :
    ("wss://".toList.isPrefixOf url = true ∨ "ws://".toList.isPrefixOf url = true) ↔
      ∃ scheme tail, IsScheme scheme ∧ url = scheme ++ schemeSep ++ tail := by
  rw [List.isPrefixOf_iff_prefix, List.isPrefixOf_iff_prefix]
  constructor
  · rintro (⟨tail, rfl⟩ | ⟨tail, rfl⟩)
    · exact ⟨_, tail, Or.inl rfl, rfl⟩
    · exact ⟨_, tail, Or.inr rfl, rfl⟩
  · rintro ⟨scheme, tail, rfl | rfl, rfl⟩
    · exact Or.inl ⟨tail, rfl⟩
    · exact Or.inr ⟨tail, rfl⟩

/-- A URL is split in one way. -/
theorem IsScheme.split_unique {scheme scheme' r r' : List Char} (h : IsScheme scheme)
    (h' : IsScheme scheme') (heq : scheme ++ schemeSep ++ r = scheme' ++ schemeSep ++ r') :
    scheme = scheme' ∧ r = r' := by
  have hscheme : scheme = scheme' := by
    rw [← (h.secondPart_eq r).2, heq, (h'.secondPart_eq r').2]
  rw [hscheme] at heq
  exact ⟨hscheme, List.append_cancel_left heq⟩

theorem IsScheme.no_query {scheme : List Char} (h : IsScheme scheme) :
    ∀ c ∈ scheme ++ schemeSep, c ∉ ['?', '#'] := by
  rcases h with rfl | rfl <;> exact List.all_iff_forall_prop.mp (by decide)

theorem hostPart_address (tail : List Char) :
    ((beforeFirst schemeSep tail).takeWhile fun c => c ∉ ['/', '?', '#']).takeWhile
        (fun c => c ≠ ':') = hostPart (address tail) := by
  rw [hostPart, address, List.takeWhile_takeWhile (fun c => decide (c ≠ '/'))]
  congr 2
  funext c
  simp

/-! ## What is returned -/

section normalize

variable {toLowercase : List Char → List Char} {isIp : List Char → Bool} {raw u : List Char}

/-- What is returned for a URL with a relay's scheme. -/
theorem normalizeRelayUrl_of_scheme {scheme tail : List Char} (hscheme : IsScheme scheme)
    (hlower : toLowercase (trimJunkTail raw) = scheme ++ schemeSep ++ tail) :
    normalizeRelayUrl toLowercase isIp raw =
      if Blocked isIp (hostPart (address tail)) ∨ trimJunkTail (address tail) = [] then none
      else some (scheme ++ schemeSep ++ trimJunkTail (address tail)) := by
  have hws := exists_scheme_iff.mpr ⟨scheme, tail, hscheme, hlower⟩
  obtain ⟨hsecond, hfirst⟩ := hscheme.secondPart_eq tail
  rw [← hlower] at hsecond hfirst
  rw [normalizeRelayUrl]
  simp only [hws, not_true_eq_false, if_false, hsecond, hfirst, Option.bind_eq_bind,
    Option.bind_some, hostPart_address]
  rw [← address]
  by_cases hblocked : Blocked isIp (hostPart (address tail))
  · rw [if_pos hblocked, if_pos (Or.inl hblocked)]
  · rw [if_neg hblocked]
    by_cases hnil : trimJunkTail (address tail) = []
    · rw [if_pos hnil, if_pos (Or.inr hnil)]
    · rw [if_neg hnil, if_neg (not_or.mpr ⟨hblocked, hnil⟩)]

theorem normalizeRelayUrl_eq_some_iff : normalizeRelayUrl toLowercase isIp raw = some u ↔
    ∃ scheme tail, IsScheme scheme ∧
      toLowercase (trimJunkTail raw) = scheme ++ schemeSep ++ tail ∧
      ¬ Blocked isIp (hostPart (address tail)) ∧ trimJunkTail (address tail) ≠ [] ∧
      u = scheme ++ schemeSep ++ trimJunkTail (address tail) := by
  constructor
  · intro h
    obtain ⟨scheme, tail, hscheme, hlower⟩ : ∃ scheme tail, IsScheme scheme ∧
        toLowercase (trimJunkTail raw) = scheme ++ schemeSep ++ tail := by
      rw [← exists_scheme_iff]
      by_contra hnot
      rw [normalizeRelayUrl, if_pos hnot] at h
      cases h
    rw [normalizeRelayUrl_of_scheme hscheme hlower] at h
    split at h
    case isTrue => cases h
    case isFalse hok =>
      obtain ⟨hblocked, hnil⟩ := not_or.mp hok
      exact ⟨scheme, tail, hscheme, hlower, hblocked, hnil, (Option.some.inj h).symm⟩
  · rintro ⟨scheme, tail, hscheme, hlower, hblocked, hnil, rfl⟩
    rw [normalizeRelayUrl_of_scheme hscheme hlower, if_neg (not_or.mpr ⟨hblocked, hnil⟩)]

theorem mem_address {tail : List Char} {c : Char} (h : c ∈ address tail) :
    c ∈ tail ∧ c ∉ ['?', '#'] := by
  rw [address] at h
  have hpre : (beforeFirst schemeSep tail).takeWhile (fun c => decide (c ∉ ['?', '#'])) <+:
      beforeFirst schemeSep tail := List.takeWhile_prefix _
  have hshown : decide (c ∉ ['?', '#']) = true :=
    List.mem_takeWhile_imp (p := fun c => decide (c ∉ ['?', '#'])) h
  exact ⟨(beforeFirst_prefix_self schemeSep tail).subset (hpre.subset h), of_decide_eq_true hshown⟩

/-- An address is its own address, and so is what it is trimmed to. -/
theorem address_trimJunkTail (tail : List Char) :
    address (trimJunkTail (address tail)) = trimJunkTail (address tail) := by
  have hpiece := trimJunkTail_piece (address tail)
  have hpre : address tail <+: beforeFirst schemeSep tail := List.takeWhile_prefix _
  have hsep : ¬ schemeSep <:+: trimJunkTail (address tail) := fun h =>
    not_infix_beforeFirst (by decide) tail (h.trans (hpiece.trans hpre.isInfix))
  rw [address, beforeFirst_eq_self hsep, List.takeWhile_eq_self_iff]
  intro c hc
  exact decide_eq_true (mem_address (hpiece.subset hc)).2

/-- A URL that was put together from clean parts is clean. -/
theorem trimJunkTail_url {scheme r : List Char} (hscheme : IsScheme scheme)
    (hself : trimJunkTail r = r) (hne : r ≠ []) :
    trimJunkTail (scheme ++ schemeSep ++ r) = scheme ++ schemeSep ++ r := by
  obtain ⟨-, -, hclean⟩ := trimJunkTail_eq_iff.mp hself
  rw [trimJunkTail_eq_iff]
  refine ⟨Within.refl _, ?_, Clean.append_of_last hclean hne ?_⟩
  · rintro c hc
    have hw : c = 'w' := by
      rcases hscheme with rfl | rfl <;> exact (Option.some.inj hc).symm
    rw [hw]
    decide
  · rintro c hc
    right
    rcases hscheme with rfl | rfl <;> exact (Option.some.inj hc).symm

/-! ## Canonical URLs -/

/-- The host that an address names is none that is scraped: what stands before the first slash or
port, or an address in brackets. -/
def NamesBlocked (isIp : List Char → Bool) (address : List Char) : Prop :=
  Blocked isIp (hostPart address) ∨
    ∃ ip rest, address = '[' :: (ip ++ ']' :: rest) ∧ isIp ip = true

/-- A URL that is left as it is, of a relay, without query and fragment, whose host can be
scraped. -/
def Canonical (toLowercase : List Char → List Char) (isIp : List Char → Bool) (u : List Char) :
    Prop :=
  normalizeRelayUrl toLowercase isIp u = some u ∧
    ∃ scheme r, IsScheme scheme ∧ u = scheme ++ schemeSep ++ r ∧ '?' ∉ u ∧ '#' ∉ u ∧
      ¬ NamesBlocked isIp r

/-- The characters of text in lowercase are their own lowercase. -/
def LowerFixed (toLowercase : List Char → List Char) : Prop :=
  ∀ s t, (∀ c ∈ t, c ∈ toLowercase s) → toLowercase t = t

/-- The host passes the checks with what stands around it: blanks in front or junk behind, which
are then trimmed off, or brackets. -/
def Uncovers (toLowercase : List Char → List Char) (isIp : List Char → Bool) (raw : List Char) :
    Prop :=
  ∃ url scheme tail r, TrimsTo raw url ∧ IsScheme scheme ∧
    toLowercase url = scheme ++ schemeSep ++ tail ∧ TrimsTo (address tail) r ∧ r ≠ [] ∧
    ¬ Blocked isIp (hostPart (address tail)) ∧ NamesBlocked isIp r

/-- Only the host can keep what is returned from being canonical. -/
theorem canonical_url_iff (hlower : LowerFixed toLowercase) {scheme tail : List Char}
    (hscheme : IsScheme scheme)
    (hraw : toLowercase (trimJunkTail raw) = scheme ++ schemeSep ++ tail)
    (hne : trimJunkTail (address tail) ≠ []) :
    Canonical toLowercase isIp (scheme ++ schemeSep ++ trimJunkTail (address tail)) ↔
      ¬ NamesBlocked isIp (trimJunkTail (address tail)) := by
  have haddress := address_trimJunkTail tail
  have hself := trimJunkTail_trimJunkTail (address tail)
  have hmem : ∀ c ∈ trimJunkTail (address tail), c ∈ tail ∧ c ∉ ['?', '#'] :=
    fun c hc => mem_address ((trimJunkTail_piece (address tail)).subset hc)
  generalize trimJunkTail (address tail) = r at *
  constructor
  · rintro ⟨-, scheme', r', hscheme', heq, -, -, hnames⟩
    rwa [(hscheme.split_unique hscheme' heq).2]
  · intro hnames
    -- every character of the URL was in the lowercase text
    have hfixed : toLowercase (scheme ++ schemeSep ++ r) = scheme ++ schemeSep ++ r := by
      refine hlower (trimJunkTail raw) _ fun c hc => ?_
      rw [hraw]
      rcases List.mem_append.mp hc with hc | hc
      · exact List.mem_append_left _ hc
      · exact List.mem_append_right _ (hmem c hc).1
    have hquery : ∀ c ∈ scheme ++ schemeSep ++ r, c ∉ ['?', '#'] := by
      intro c hc
      rcases List.mem_append.mp hc with hc | hc
      · exact hscheme.no_query c hc
      · exact (hmem c hc).2
    refine ⟨?_, scheme, r, hscheme, rfl, fun h => hquery _ h (by simp),
      fun h => hquery _ h (by simp), hnames⟩
    rw [normalizeRelayUrl_eq_some_iff]
    refine ⟨scheme, r, hscheme, ?_, ?_, ?_, ?_⟩
    · rw [trimJunkTail_url hscheme hself hne, hfixed]
    · rw [haddress]
      exact fun hblocked => hnames (Or.inl hblocked)
    · rwa [haddress, hself]
    · rw [haddress, hself]

/-- **When normalisation is canonical.** -/
theorem canonical_iff (hlower : LowerFixed toLowercase) (raw : List Char) :
    (∀ u, normalizeRelayUrl toLowercase isIp raw = some u → Canonical toLowercase isIp u) ↔
      ¬ Uncovers toLowercase isIp raw := by
  constructor
  · rintro hall ⟨url, scheme, tail, r, hurl, hscheme, hraw, hr, hne, hblocked, hnames⟩
    rw [← trimJunkTail_eq_iff] at hurl hr
    subst hurl hr
    have hcanonical := hall _ (normalizeRelayUrl_eq_some_iff.mpr
      ⟨scheme, tail, hscheme, hraw, hblocked, hne, rfl⟩)
    exact (canonical_url_iff hlower hscheme hraw hne).mp hcanonical hnames
  · intro hnot u hu
    obtain ⟨scheme, tail, hscheme, hraw, hblocked, hne, rfl⟩ := normalizeRelayUrl_eq_some_iff.mp hu
    rw [canonical_url_iff hlower hscheme hraw hne]
    exact fun hnames => hnot ⟨_, scheme, tail, _, trimsTo_trimJunkTail raw, hscheme, hraw,
      trimsTo_trimJunkTail _, hne, hblocked, hnames⟩

end normalize

/-- Only ASCII has an ASCII lowercase. -/
theorem toLower_of_not_ascii {c : Char} (h : ¬ c.toNat < 128) : c.toLower = c := by
  have hnot : ¬ (c.val ≥ 'A'.val ∧ c.val ≤ 'Z'.val) := fun hupper =>
    h (Nat.lt_of_le_of_lt (UInt32.le_iff_toNat_le.mp hupper.2) (by decide))
  unfold Char.toLower
  rw [dif_neg hnot]

theorem toLower_toLower (c : Char) : c.toLower.toLower = c.toLower := by
  have hall : ∀ n < 128, (Char.ofNat n).toLower.toLower = (Char.ofNat n).toLower := by decide
  by_cases h : c.toNat < 128
  · exact of_ascii (P := fun c => c.toLower.toLower = c.toLower) hall h
  · rw [toLower_of_not_ascii h, toLower_of_not_ascii h]

theorem asciiLower_fixed : LowerFixed asciiLower := by
  intro s t h
  refine (List.map_congr_left fun c hc => ?_).trans (List.map_id t)
  obtain ⟨d, -, hd⟩ := List.mem_map.mp (h c hc)
  rw [← hd, toLower_toLower, id]

/-- A relay from a list that was joined on commas. -/
theorem snort_canonical :
    (∀ u, normalizeRelayUrl asciiLower (fun _ => false) "wss://Relay.snort.social/,?x=1".toList =
        some u → Canonical asciiLower (fun _ => false) u) ↔
      ¬ Uncovers asciiLower (fun _ => false) "wss://Relay.snort.social/,?x=1".toList :=
  canonical_iff asciiLower_fixed _

/-- `localhost,` is no host that is blocked, and what is returned is `localhost`. -/
theorem localhost_returned :
    ¬ ∀ u, normalizeRelayUrl asciiLower (fun _ => false) "wss://localhost,?x=1".toList = some u →
      Canonical asciiLower (fun _ => false) u := by
  intro hall
  have hnone : normalizeRelayUrl asciiLower (fun _ => false) "wss://localhost".toList = none := by
    decide +kernel
  have hcanonical := hall "wss://localhost".toList (by decide +kernel)
  rw [Canonical, hnone] at hcanonical
  exact Option.some_ne_none _ hcanonical.1.symm

end NostrSearch.Core
