import NostrSearch.Core.Nip19Slices

/-!
# The content tokenizer

A text is read in one pass. Ordinary words are split at what is not alphanumeric; runs of characters
that are written without blanks come out as overlapping pairs at consecutive positions, and a lone
one as itself. What is pending at a step is one word or one run, next to the character that is read
(`Scan.Inv`). A string of such characters is then found in every text it occurs in, since the pairs
of a piece of a run are a piece of the pairs of the run (`tokenize_spec`).

`char::is_alphanumeric` is a parameter.
-/

namespace NostrSearch.Core

/-! ## The scanner -/

structure Token where
  offsetFrom : ℕ
  offsetTo : ℕ
  position : ℕ
  text : List Char
  positionLength : ℕ
deriving DecidableEq

/-- Scripts written without word separators. -/
def isScriptioContinua (c : Char) : Bool :=
  let n := c.toNat
  -- CJK ideographs
  (0x3400 ≤ n && n ≤ 0x4DBF) || (0x4E00 ≤ n && n ≤ 0x9FFF) || (0xF900 ≤ n && n ≤ 0xFAFF) ||
    (0x20000 ≤ n && n ≤ 0x2FA1F) ||
    -- Hiragana and Katakana
    (0x3040 ≤ n && n ≤ 0x30FF) || (0x31F0 ≤ n && n ≤ 0x31FF) || (0xFF66 ≤ n && n ≤ 0xFF9D) ||
    -- Hangul
    (0x1100 ≤ n && n ≤ 0x11FF) || (0xA960 ≤ n && n ≤ 0xA97F) || (0xAC00 ≤ n && n ≤ 0xD7FF) ||
    -- Thai, Lao, Khmer, Myanmar
    (0x0E00 ≤ n && n ≤ 0x0E7F) || (0x0E80 ≤ n && n ≤ 0x0EFF) || (0x1780 ≤ n && n ≤ 0x17FF) ||
    (0x1000 ≤ n && n ≤ 0x109F)

/-- `&s[start..stop]` -/
def strSlice (s : List Char) (start stop : ℕ) : Except SliceFault (List Char) :=
  if start ≤ stop then do
    let (_, tail) ← splitAtByte start s
    let (piece, _) ← splitAtByte (stop - start) tail
    pure piece
  else .error .outOfBounds

/-- The variables of `tokenize`. -/
structure Scan where
  out : List Token := []
  pos : ℕ := 0
  /-- where the current word begins -/
  wordStart : Option ℕ := none
  /-- the current run, with byte offsets -/
  cont : List (ℕ × Char) := []

namespace Scan

def push (s : Scan) (offsetFrom offsetTo : ℕ) (text : List Char) : Scan :=
  { s with
    out := s.out ++ [{ offsetFrom, offsetTo, position := s.pos, text, positionLength := 1 }]
    pos := s.pos + 1 }

/-- `word_start.take()`, and `flush_word` of what was there. -/
def flushWord (text : List Char) (stop : ℕ) (s : Scan) : Except SliceFault Scan :=
  match s.wordStart with
  | none => .ok s
  | some start =>
    (strSlice text start stop).map fun word => { s with wordStart := none }.push start stop word

/-- One window of two. -/
def pushPair (s : Scan) (w : (ℕ × Char) × (ℕ × Char)) : Scan :=
  s.push w.1.1 (w.1.1 + w.1.2.utf8Size + w.2.2.utf8Size) [w.1.2, w.2.2]

/-- `flush_cont` -/
def flushCont (s : Scan) : Scan :=
  let pushed :=
    match s.cont with
    | [] => s
    | [(off, c)] => s.push off (off + c.utf8Size) [c]
    | run => (run.zip run.tail).foldl pushPair s
  { pushed with cont := [] }

/-- One character. -/
def step (isAlphanumeric : Char → Bool) (text : List Char) (s : Scan) (x : ℕ × Char) :
    Except SliceFault Scan :=
  if isScriptioContinua x.2 then
    (s.flushWord text x.1).map fun s => { s with cont := s.cont ++ [x] }
  else if isAlphanumeric x.2 then
    let s := s.flushCont
    .ok (if s.wordStart.isNone then { s with wordStart := some x.1 } else s)
  else (s.flushWord text x.1).map flushCont

end Scan

/-- Split `text` into tokens, choosing the rule per script run. -/
def tokenize (isAlphanumeric : Char → Bool) (text : List Char) : Except SliceFault (List Token) := do
  let s ← (charIndices 0 text).foldlM (Scan.step isAlphanumeric text) {}
  let s ← s.flushWord text (byteLen text)
  pure s.flushCont.out

example : (tokenize Char.isAlphanum "a 円 ビット b".toList).map (fun ts => ts.map Token.text) =
    .ok ["a".toList, "円".toList, "ビッ".toList, "ット".toList, "b".toList] := by
  decide +kernel

/-! ## Slices -/

theorem strSlice_append (a b c : List Char) :
    strSlice (a ++ b ++ c) (byteLen a) (byteLen a + byteLen b) = .ok b := by
  rw [strSlice, if_pos (Nat.le_add_right _ _), List.append_assoc, splitAtByte_append]
  show (splitAtByte (byteLen a + byteLen b - byteLen a) (b ++ c) >>= fun p => pure p.1) = _
  rw [Nat.add_sub_cancel_left, splitAtByte_append]
  rfl

/-! ## The tokens of a run -/

/-- A run as overlapping pairs, from a position on. -/
def pairTokens (pos : ℕ) : List (ℕ × Char) → List Token
  | (off, a) :: (off', b) :: run =>
    ⟨off, off + a.utf8Size + b.utf8Size, pos, [a, b], 1⟩ :: pairTokens (pos + 1) ((off', b) :: run)
  | _ => []

/-- The tokens of a run: pairs, or the lone character. -/
def runTokens (pos : ℕ) : List (ℕ × Char) → List Token
  | [(off, c)] => [⟨off, off + c.utf8Size, pos, [c], 1⟩]
  | run => pairTokens pos run

theorem foldl_pushPair (run : List (ℕ × Char)) (s : Scan) :
    (run.zip run.tail).foldl Scan.pushPair s =
      { s with out := s.out ++ pairTokens s.pos run, pos := s.pos + (pairTokens s.pos run).length } := by
  match run with
  | [] => simp [pairTokens]
  | [x] => simp [pairTokens]
  | (off, a) :: (off', b) :: run =>
    rw [List.tail_cons, List.zip_cons_cons, List.foldl_cons]
    have hrest := foldl_pushPair ((off', b) :: run) (s.pushPair ((off, a), (off', b)))
    rw [List.tail_cons] at hrest
    rw [hrest]
    simp [pairTokens, Scan.pushPair, Scan.push]
    omega

theorem flushCont_eq (s : Scan) : s.flushCont =
    { s with
      out := s.out ++ runTokens s.pos s.cont
      pos := s.pos + (runTokens s.pos s.cont).length
      cont := [] } := by
  unfold Scan.flushCont
  dsimp only
  split
  case h_1 h => simp [h, runTokens, pairTokens]
  case h_2 off c h => simp [h, runTokens, Scan.push]
  case h_3 run h1 h2 =>
    rw [foldl_pushPair]
    have hrun : runTokens s.pos s.cont = pairTokens s.pos s.cont := by
      unfold runTokens
      split
      case h_1 off c h => exact absurd h (h2 off c)
      case h_2 => rfl
    rw [hrun]

/-! ## What is read so far -/

/-- Each token of the characters is inside one of the tokens. -/
def Covers (isAlphanumeric : Char → Bool) (tokens : List Token) (s : List Char) : Prop :=
  ∀ a c b, s = a ++ c :: b → (isAlphanumeric c = true ∨ isScriptioContinua c = true) →
    ∃ t ∈ tokens, t.offsetFrom ≤ byteLen a ∧ byteLen a + c.utf8Size ≤ t.offsetTo

/-- Tokens at the positions from 0 on, whose offsets slice the text. -/
structure Located (text : List Char) (tokens : List Token) : Prop where
  positions : tokens.map Token.position = List.range tokens.length
  slices : ∀ t ∈ tokens, strSlice text t.offsetFrom t.offsetTo = .ok t.text

/-- What has been read is in tokens, except for one run or one word at its end. -/
structure Scan.Inv (isAlphanumeric : Char → Bool) (text read : List Char) (s : Scan) : Prop where
  located : Located text s.out
  pos_eq : s.pos = s.out.length
  pending : ∃ before piece, read = before ++ piece ∧ Covers isAlphanumeric s.out before ∧
    (s.wordStart = none ∧ s.cont = charIndices (byteLen before) piece ∨
      s.wordStart = some (byteLen before) ∧ s.cont = [])

theorem Covers.nil (isAlphanumeric : Char → Bool) (tokens : List Token) :
    Covers isAlphanumeric tokens [] := by
  intro a c b h
  cases a <;> cases h

theorem Covers.mono {isAlphanumeric : Char → Bool} {tokens tokens' : List Token} {s : List Char}
    (h : Covers isAlphanumeric tokens s) (hsub : tokens ⊆ tokens') :
    Covers isAlphanumeric tokens' s := by
  intro a c b hs hc
  obtain ⟨t, ht, hin⟩ := h a c b hs hc
  exact ⟨t, hsub ht, hin⟩

/-- Characters after others are covered on their own. -/
theorem Covers.append {isAlphanumeric : Char → Bool} {tokens : List Token} {s piece : List Char}
    (h : Covers isAlphanumeric tokens s)
    (hpiece : ∀ a c b, piece = a ++ c :: b →
      (isAlphanumeric c = true ∨ isScriptioContinua c = true) →
        ∃ t ∈ tokens, t.offsetFrom ≤ byteLen (s ++ a) ∧
          byteLen (s ++ a) + c.utf8Size ≤ t.offsetTo) :
    Covers isAlphanumeric tokens (s ++ piece) := by
  intro a c b hs hc
  rcases List.append_eq_append_iff.mp hs with ⟨a', rfl, hpart⟩ | ⟨c', hpart, hrest⟩
  · exact hpiece a' c b hpart hc
  · cases c' with
    | nil =>
      rw [List.append_nil] at hpart
      subst hpart
      have hin := hpiece [] c b hrest.symm hc
      rwa [List.append_nil] at hin
    | cons x c' =>
      obtain ⟨rfl, hb⟩ := List.cons.inj hrest
      exact h a c c' hpart hc

theorem Located.append {text : List Char} {tokens new : List Token} (h : Located text tokens)
    (hpos : new.map Token.position = List.range' tokens.length new.length)
    (hslices : ∀ t ∈ new, strSlice text t.offsetFrom t.offsetTo = .ok t.text) :
    Located text (tokens ++ new) := by
  refine ⟨?_, fun t ht => ?_⟩
  · rw [List.map_append, h.positions, hpos, List.length_append, List.range_eq_range',
      List.range_eq_range', ← List.range'_append_1, Nat.zero_add]
  · rcases List.mem_append.mp ht with ht | ht
    · exact h.slices t ht
    · exact hslices t ht

/-! ## Runs -/

theorem positions_pairTokens (pos : ℕ) (run : List (ℕ × Char)) :
    (pairTokens pos run).map Token.position = List.range' pos (pairTokens pos run).length := by
  match run with
  | [] => rfl
  | [_] => rfl
  | (off, a) :: (off', b) :: run =>
    rw [pairTokens, List.map_cons, positions_pairTokens (pos + 1) ((off', b) :: run),
      List.length_cons, List.range'_succ]

theorem pairTokens_cons (pos : ℕ) (before : List Char) (x y : Char) (piece : List Char) :
    pairTokens pos (charIndices (byteLen before) (x :: y :: piece)) =
      ⟨byteLen before, byteLen before + byteLen [x, y], pos, [x, y], 1⟩ ::
        pairTokens (pos + 1) (charIndices (byteLen (before ++ [x])) (y :: piece)) := by
  rw [byteLen_append]
  simp [charIndices, pairTokens, byteLen, Nat.add_assoc]

/-- The pairs of a run of the text slice it. -/
theorem slices_pairTokens (before piece rest : List Char) (pos : ℕ) :
    ∀ t ∈ pairTokens pos (charIndices (byteLen before) piece),
      strSlice (before ++ piece ++ rest) t.offsetFrom t.offsetTo = .ok t.text := by
  induction piece generalizing before pos with
  | nil => exact nofun
  | cons x piece ih =>
    cases piece with
    | nil => exact nofun
    | cons y piece =>
      rw [pairTokens_cons]
      refine List.forall_mem_cons.mpr ⟨?_, ?_⟩
      · have hslice := strSlice_append before [x, y] (piece ++ rest)
        rwa [List.append_assoc] at hslice ⊢
      · have hrest := ih (before ++ [x]) (pos + 1)
        rwa [List.append_assoc before, List.singleton_append] at hrest

/-- All characters of a run of two or more are in one of its pairs. -/
theorem covered_pairTokens (before piece : List Char) (hlen : 2 ≤ piece.length) (pos : ℕ)
    {a b : List Char} {c : Char} (h : piece = a ++ c :: b) :
    ∃ t ∈ pairTokens pos (charIndices (byteLen before) piece),
      t.offsetFrom ≤ byteLen (before ++ a) ∧ byteLen (before ++ a) + c.utf8Size ≤ t.offsetTo := by
  induction piece generalizing before pos a with
  | nil => cases a <;> cases h
  | cons x piece ih =>
    cases piece with
    | nil => exact absurd hlen (by simp)
    | cons y piece =>
      have hpair : byteLen [x, y] = x.utf8Size + y.utf8Size := by simp [byteLen]
      rw [pairTokens_cons, hpair]
      cases a with
      | nil =>
        obtain ⟨rfl, -⟩ := List.cons.inj h
        refine ⟨_, List.mem_cons_self, ?_, ?_⟩
        · rw [List.append_nil]
        · rw [List.append_nil]
          dsimp only
          omega
      | cons x' a =>
        obtain ⟨rfl, htail⟩ := List.cons.inj h
        cases piece with
        | nil =>
          -- the last character is the second of the last pair
          obtain ⟨rfl, rfl⟩ : a = [] ∧ c = y := by
            cases a with
            | nil => exact ⟨rfl, (List.cons.inj htail).1.symm⟩
            | cons z a => cases a <;> cases (List.cons.inj htail).2
          refine ⟨_, List.mem_cons_self, ?_, ?_⟩
          · rw [byteLen_append]
            exact Nat.le_add_right _ _
          · have hone : byteLen [x] = x.utf8Size := by simp [byteLen]
            rw [byteLen_append, hone]
            dsimp only
            omega
        | cons z piece =>
          obtain ⟨t, ht, hin⟩ := ih (before ++ [x]) (by simp) (pos + 1) htail
          rw [List.append_assoc, List.singleton_append] at hin
          exact ⟨t, List.mem_cons_of_mem _ ht, hin⟩

theorem runTokens_of_two_le {run : List (ℕ × Char)} (h : 2 ≤ run.length) (pos : ℕ) :
    runTokens pos run = pairTokens pos run := by
  match run with
  | [] => rfl
  | [_] => exact absurd h (by simp)
  | _ :: _ :: _ => rfl

theorem length_charIndices (pos : ℕ) (s : List Char) : (charIndices pos s).length = s.length := by
  induction s generalizing pos with
  | nil => rfl
  | cons c s ih => rw [charIndices, List.length_cons, ih, List.length_cons]

theorem positions_runTokens (pos : ℕ) (run : List (ℕ × Char)) :
    (runTokens pos run).map Token.position = List.range' pos (runTokens pos run).length := by
  unfold runTokens
  split
  · rfl
  · exact positions_pairTokens pos run

/-- The tokens of a run of the text. -/
theorem runTokens_spec (before piece rest : List Char) (pos : ℕ) :
    (∀ t ∈ runTokens pos (charIndices (byteLen before) piece),
      strSlice (before ++ piece ++ rest) t.offsetFrom t.offsetTo = .ok t.text) ∧
    ∀ a c b, piece = a ++ c :: b → ∃ t ∈ runTokens pos (charIndices (byteLen before) piece),
      t.offsetFrom ≤ byteLen (before ++ a) ∧ byteLen (before ++ a) + c.utf8Size ≤ t.offsetTo := by
  rcases Nat.lt_or_ge piece.length 2 with hshort | hlong
  · match piece, hshort with
    | [], _ => exact ⟨nofun, fun a c b h => by cases a <;> cases h⟩
    | [x], _ =>
      have hone : byteLen [x] = x.utf8Size := by simp [byteLen]
      constructor
      · refine List.forall_mem_singleton.mpr ?_
        have hslice := strSlice_append before [x] rest
        rwa [hone] at hslice
      · intro a c b h
        obtain ⟨rfl, rfl⟩ : a = [] ∧ c = x := by
          cases a with
          | nil => exact ⟨rfl, (List.cons.inj h).1.symm⟩
          | cons z a => cases a <;> cases (List.cons.inj h).2
        refine ⟨_, List.mem_singleton_self _, ?_, ?_⟩
        · rw [List.append_nil]
        · rw [List.append_nil]
  · rw [runTokens_of_two_le (by rw [length_charIndices]; exact hlong)]
    exact ⟨slices_pairTokens before piece rest pos,
      fun a c b h => covered_pairTokens before piece hlong pos h⟩

/-! ## Steps -/

namespace Scan

variable {isAlphanumeric : Char → Bool} {text read rest : List Char} {s : Scan}

/-- With nothing pending all is in tokens. -/
theorem Inv.covers (h : s.Inv isAlphanumeric text read) (hword : s.wordStart = none)
    (hcont : s.cont = []) : Covers isAlphanumeric s.out read := by
  obtain ⟨before, piece, rfl, hcovers, ⟨-, hrun⟩ | ⟨hsome, -⟩⟩ := h.pending
  · cases piece with
    | nil => rwa [List.append_nil]
    | cons c piece =>
      rw [hcont] at hrun
      cases hrun
  · rw [hword] at hsome
    cases hsome

/-- A word ends where the reading is. -/
theorem Inv.flushWord (h : s.Inv isAlphanumeric text read) (htext : text = read ++ rest) :
    ∃ s', s.flushWord text (byteLen read) = .ok s' ∧ s'.Inv isAlphanumeric text read ∧
      s'.wordStart = none := by
  obtain ⟨before, piece, rfl, hcovers, ⟨hnone, hrun⟩ | ⟨hsome, hcont⟩⟩ := h.pending
  · refine ⟨s, ?_, h, hnone⟩
    rw [Scan.flushWord, hnone]
  · have hslice : strSlice text (byteLen before) (byteLen (before ++ piece)) = .ok piece := by
      rw [htext, byteLen_append]
      exact strSlice_append before piece rest
    refine ⟨{ s with wordStart := none }.push (byteLen before) (byteLen (before ++ piece)) piece, ?_,
      ⟨?_, ?_, ?_⟩, rfl⟩
    · rw [Scan.flushWord, hsome]
      dsimp only
      rw [hslice]
      rfl
    · refine h.located.append ?_ (List.forall_mem_singleton.mpr hslice)
      rw [h.pos_eq]
      rfl
    · show s.pos + 1 = (s.out ++ [_]).length
      rw [List.length_append, h.pos_eq]
      rfl
    · refine ⟨before ++ piece, [], (List.append_nil _).symm, ?_, Or.inl ⟨rfl, hcont⟩⟩
      refine (hcovers.mono (List.subset_append_left _ _)).append fun a c b hpiece _ => ?_
      refine ⟨_, List.mem_append_right _ List.mem_cons_self, ?_⟩
      show byteLen before ≤ byteLen (before ++ a) ∧
        byteLen (before ++ a) + c.utf8Size ≤ byteLen (before ++ piece)
      rw [hpiece, byteLen_append, byteLen_append, byteLen_append, byteLen_cons]
      omega

/-- So does a run. -/
theorem Inv.flushCont (h : s.Inv isAlphanumeric text read) (htext : text = read ++ rest) :
    s.flushCont.Inv isAlphanumeric text read := by
  rw [flushCont_eq]
  obtain ⟨before, piece, rfl, hcovers, ⟨hnone, hrun⟩ | ⟨hsome, hcont⟩⟩ := h.pending
  · obtain ⟨hslices, hcovered⟩ := runTokens_spec before piece rest s.pos
    rw [← hrun, ← htext] at hslices
    rw [← hrun] at hcovered
    refine ⟨h.located.append ?_ hslices, ?_, ?_⟩
    · rw [← h.pos_eq]
      exact positions_runTokens s.pos s.cont
    · show s.pos + _ = (s.out ++ _).length
      rw [List.length_append, h.pos_eq]
    · refine ⟨before ++ piece, [], (List.append_nil _).symm, ?_, Or.inl ⟨hnone, rfl⟩⟩
      refine (hcovers.mono (List.subset_append_left _ _)).append fun a c b hpiece _ => ?_
      obtain ⟨t, ht, hin⟩ := hcovered a c b hpiece
      exact ⟨t, List.mem_append_right _ ht, hin⟩
  · have hnone : runTokens s.pos s.cont = [] := by rw [hcont]; rfl
    rw [hnone, List.append_nil, List.length_nil, Nat.add_zero]
    exact ⟨h.located, h.pos_eq, before, piece, rfl, hcovers, Or.inr ⟨hsome, rfl⟩⟩

theorem wordStart_flushCont (s : Scan) : s.flushCont.wordStart = s.wordStart := by
  rw [flushCont_eq]

/-- **One character is read.** -/
theorem Inv.step (h : s.Inv isAlphanumeric text read) {c : Char} (htext : text = read ++ c :: rest) :
    ∃ s', s.step isAlphanumeric text (byteLen read, c) = .ok s' ∧
      s'.Inv isAlphanumeric text (read ++ [c]) := by
  unfold Scan.step
  by_cases hsc : isScriptioContinua c = true
  · obtain ⟨s', hflush, hinv, hnone⟩ := h.flushWord htext
    rw [if_pos hsc, hflush]
    refine ⟨_, rfl, hinv.located, hinv.pos_eq, ?_⟩
    obtain ⟨before, piece, rfl, hcovers, ⟨-, hrun⟩ | ⟨hsome, -⟩⟩ := hinv.pending
    · refine ⟨before, piece ++ [c], List.append_assoc _ _ _, hcovers, Or.inl ⟨hnone, ?_⟩⟩
      show s'.cont ++ [_] = _
      rw [hrun, charIndices_append, byteLen_append]
      rfl
    · rw [hnone] at hsome
      cases hsome
  · rw [if_neg hsc]
    by_cases halnum : isAlphanumeric c = true
    · have hinv := h.flushCont htext
      rw [if_pos halnum]
      refine ⟨_, rfl, ?_⟩
      cases hword : s.flushCont.wordStart with
      | none =>
        exact ⟨hinv.located, hinv.pos_eq, read, [c], rfl, hinv.covers hword rfl, Or.inr ⟨rfl, rfl⟩⟩
      | some start =>
        refine ⟨hinv.located, hinv.pos_eq, ?_⟩
        obtain ⟨before, piece, rfl, hcovers, ⟨hnone, -⟩ | ⟨hsome, hcont⟩⟩ := hinv.pending
        · rw [hword] at hnone
          cases hnone
        · exact ⟨before, piece ++ [c], List.append_assoc _ _ _, hcovers, Or.inr ⟨hsome, hcont⟩⟩
    · rw [if_neg halnum]
      obtain ⟨s', hflush, hinv, hnone⟩ := h.flushWord htext
      rw [hflush]
      have hinv' := hinv.flushCont htext
      have hword : s'.flushCont.wordStart = none := (wordStart_flushCont s').trans hnone
      refine ⟨_, rfl, hinv'.located, hinv'.pos_eq, read ++ [c], [], (List.append_nil _).symm, ?_,
        Or.inl ⟨hword, rfl⟩⟩
      -- a character that is in no token needs none
      refine (hinv'.covers hword rfl).append fun a x b hx htoken => ?_
      obtain rfl : c = x := by
        cases a with
        | nil => exact (List.cons.inj hx).1
        | cons y a => cases a <;> cases (List.cons.inj hx).2
      rcases htoken with htoken | htoken
      · exact absurd htoken halnum
      · exact absurd htoken hsc

/-- **The whole text is read.** -/
theorem Inv.run (h : s.Inv isAlphanumeric text read) (htext : text = read ++ rest) :
    ∃ s', (charIndices (byteLen read) rest).foldlM (Scan.step isAlphanumeric text) s = .ok s' ∧
      s'.Inv isAlphanumeric text text := by
  induction rest generalizing read s with
  | nil =>
    rw [List.append_nil] at htext
    exact ⟨s, rfl, htext ▸ h⟩
  | cons c rest ih =>
    obtain ⟨s', hstep, hinv⟩ := h.step htext
    rw [List.append_cons] at htext
    obtain ⟨s'', hrest, hinv'⟩ := ih hinv htext
    have hone : byteLen (read ++ [c]) = byteLen read + c.utf8Size := by
      rw [byteLen_append]
      simp [byteLen]
    refine ⟨s'', ?_, hinv'⟩
    rw [charIndices, List.foldlM_cons, hstep, ← hone]
    exact hrest

theorem Inv.start (isAlphanumeric : Char → Bool) (text : List Char) :
    ({} : Scan).Inv isAlphanumeric text [] :=
  ⟨⟨rfl, nofun⟩, rfl, [], [], rfl, Covers.nil _ _, Or.inl ⟨rfl, rfl⟩⟩

end Scan

/-! ## Substrings -/

/-- Overlapping pairs of characters. -/
def pairs : List Char → List (List Char)
  | a :: b :: s => [a, b] :: pairs (b :: s)
  | _ => []

theorem text_pairTokens (pos : ℕ) (run : List (ℕ × Char)) :
    (pairTokens pos run).map Token.text = pairs (run.map Prod.snd) := by
  match run with
  | [] => rfl
  | [_] => rfl
  | (off, a) :: (off', b) :: run =>
    have hrest := text_pairTokens (pos + 1) ((off', b) :: run)
    rw [pairTokens, List.map_cons, hrest]
    rfl

theorem pairs_append_left (a s : List Char) : pairs s <:+ pairs (a ++ s) := by
  induction a with
  | nil => exact List.suffix_rfl
  | cons x a ih =>
    refine ih.trans ?_
    cases hs : a ++ s with
    | nil =>
      rw [List.cons_append, hs]
      exact List.suffix_rfl
    | cons y t =>
      rw [List.cons_append, hs]
      exact List.suffix_cons _ _

theorem pairs_append_right (s b : List Char) : pairs s <+: pairs (s ++ b) := by
  match s with
  | [] => exact List.nil_prefix
  | [_] => exact List.nil_prefix
  | x :: y :: s =>
    have hrest := pairs_append_right (y :: s) b
    exact (List.cons_prefix_cons).mpr ⟨rfl, hrest⟩

/-- The pairs of a piece are a piece of the pairs. -/
theorem pairs_of_piece {q s : List Char} (h : q <:+: s) : pairs q <:+: pairs s := by
  obtain ⟨a, b, rfl⟩ := h
  exact (pairs_append_left a q).isInfix.trans (pairs_append_right (a ++ q) b).isInfix

namespace Scan

variable {isAlphanumeric : Char → Bool} {text q : List Char} {s s' : Scan}

/-- A string is in the run that is pending, or its pairs are in the tokens. -/
def Contains (q : List Char) (s : Scan) : Prop :=
  q <:+: s.cont.map Prod.snd ∨ pairs q <:+: s.out.map Token.text

theorem flushWord_eq_ok {stop : ℕ} (h : s.flushWord text stop = .ok s') :
    s'.cont = s.cont ∧ ∃ new, s'.out = s.out ++ new := by
  unfold flushWord at h
  cases hword : s.wordStart with
  | none =>
    rw [hword] at h
    cases h
    exact ⟨rfl, [], (List.append_nil _).symm⟩
  | some start =>
    rw [hword] at h
    dsimp only at h
    cases hslice : strSlice text start stop with
    | error e =>
      rw [hslice] at h
      cases h
    | ok word =>
      rw [hslice] at h
      cases h
      exact ⟨rfl, _, rfl⟩

theorem Contains.flushWord (h : s.Contains q) {stop : ℕ} (hflush : s.flushWord text stop = .ok s') :
    s'.Contains q := by
  obtain ⟨hcont, new, hout⟩ := flushWord_eq_ok hflush
  unfold Contains
  rw [hcont, hout, List.map_append]
  exact h.imp_right fun hpairs => hpairs.trans (List.prefix_append _ _).isInfix

theorem Contains.flushCont (hlen : 2 ≤ q.length) (h : s.Contains q) : s.flushCont.Contains q := by
  right
  rw [flushCont_eq, List.map_append]
  rcases h with hrun | hpairs
  · have htwo : 2 ≤ s.cont.length := by
      have hle := hrun.length_le
      rw [List.length_map] at hle
      omega
    rw [runTokens_of_two_le htwo, text_pairTokens]
    exact (pairs_of_piece hrun).trans (List.suffix_append _ _).isInfix
  · exact hpairs.trans (List.prefix_append _ _).isInfix

theorem Contains.step (hlen : 2 ≤ q.length) (h : s.Contains q) {x : ℕ × Char}
    (hstep : s.step isAlphanumeric text x = .ok s') : s'.Contains q := by
  unfold Scan.step at hstep
  split at hstep
  case isTrue =>
    cases hflush : s.flushWord text x.1 with
    | error e =>
      rw [hflush] at hstep
      cases hstep
    | ok s1 =>
      rw [hflush] at hstep
      cases hstep
      unfold Contains
      rw [List.map_append]
      exact (h.flushWord hflush).imp_left fun hrun => hrun.trans (List.prefix_append _ _).isInfix
  case isFalse =>
    split at hstep
    case isTrue =>
      cases hstep
      have hflush := Contains.flushCont hlen h
      split
      · exact hflush
      · exact hflush
    case isFalse =>
      cases hflush : s.flushWord text x.1 with
      | error e =>
        rw [hflush] at hstep
        cases hstep
      | ok s1 =>
        rw [hflush] at hstep
        cases hstep
        exact Contains.flushCont hlen (h.flushWord hflush)

theorem Contains.run (hlen : 2 ≤ q.length) (h : s.Contains q) {xs : List (ℕ × Char)}
    (hrun : xs.foldlM (Scan.step isAlphanumeric text) s = .ok s') : s'.Contains q := by
  induction xs generalizing s with
  | nil =>
    cases hrun
    exact h
  | cons x xs ih =>
    rw [List.foldlM_cons] at hrun
    cases hstep : s.step isAlphanumeric text x with
    | error e =>
      rw [hstep] at hrun
      cases hrun
    | ok s1 =>
      rw [hstep] at hrun
      exact ih (h.step hlen hstep) hrun

theorem of_foldlM_append {xs ys : List (ℕ × Char)}
    (h : (xs ++ ys).foldlM (Scan.step isAlphanumeric text) s = .ok s') :
    ∃ s1, xs.foldlM (Scan.step isAlphanumeric text) s = .ok s1 ∧
      ys.foldlM (Scan.step isAlphanumeric text) s1 = .ok s' := by
  rw [List.foldlM_append] at h
  cases hxs : xs.foldlM (Scan.step isAlphanumeric text) s with
  | error e =>
    rw [hxs] at h
    cases h
  | ok s1 =>
    rw [hxs] at h
    exact ⟨s1, rfl, h⟩

/-- A string of such characters joins the run that is pending. -/
theorem cont_of_scriptio (hq : ∀ c ∈ q, isScriptioContinua c = true) {pos : ℕ}
    (hrun : (charIndices pos q).foldlM (Scan.step isAlphanumeric text) s = .ok s') :
    s'.cont = s.cont ++ charIndices pos q := by
  induction q generalizing pos s with
  | nil =>
    cases hrun
    exact (List.append_nil _).symm
  | cons c q ih =>
    obtain ⟨hc, hq⟩ := List.forall_mem_cons.mp hq
    rw [charIndices, List.foldlM_cons, Scan.step, if_pos hc] at hrun
    cases hflush : s.flushWord text pos with
    | error e =>
      rw [hflush] at hrun
      cases hrun
    | ok s1 =>
      rw [hflush] at hrun
      have hcont : s'.cont = s1.cont ++ [(pos, c)] ++ charIndices (pos + c.utf8Size) q := ih hq hrun
      rw [hcont, (flushWord_eq_ok hflush).1, List.append_assoc]
      rfl

/-- With no word before it that is all it does. -/
theorem foldlM_scriptio (hword : s.wordStart = none) {xs : List (ℕ × Char)}
    (hxs : ∀ x ∈ xs, isScriptioContinua x.2 = true) :
    xs.foldlM (Scan.step isAlphanumeric text) s = .ok { s with cont := s.cont ++ xs } := by
  induction xs generalizing s with
  | nil =>
    rw [List.append_nil]
    rfl
  | cons x xs ih =>
    obtain ⟨hx, hxs⟩ := List.forall_mem_cons.mp hxs
    have hflush : s.flushWord text x.1 = .ok s := by rw [Scan.flushWord, hword]
    have hrest := ih (s := { s with cont := s.cont ++ [x] }) hword hxs
    rw [List.append_assoc] at hrest
    rw [List.foldlM_cons, Scan.step, if_pos hx, hflush]
    exact hrest

end Scan

/-! ## Tokens of a text -/

variable {isAlphanumeric : Char → Bool} {text q : List Char}

theorem tokenize_of_run {s s' : Scan}
    (hrun : (charIndices 0 text).foldlM (Scan.step isAlphanumeric text) {} = .ok s)
    (hflush : s.flushWord text (byteLen text) = .ok s') :
    tokenize isAlphanumeric text = .ok s'.flushCont.out := by
  rw [tokenize, hrun]
  show (s.flushWord text (byteLen text) >>= fun s => pure s.flushCont.out) = _
  rw [hflush]
  rfl

theorem map_snd_charIndices (pos : ℕ) (s : List Char) : (charIndices pos s).map Prod.snd = s := by
  induction s generalizing pos with
  | nil => rfl
  | cons c s ih => rw [charIndices, List.map_cons, ih]

/-- A string of such characters, two or more, comes apart into its pairs. -/
theorem tokenize_scriptio (isAlphanumeric : Char → Bool) (hlen : 2 ≤ q.length)
    (hq : ∀ c ∈ q, isScriptioContinua c = true) :
    ∃ tokens, tokenize isAlphanumeric q = .ok tokens ∧ tokens.map Token.text = pairs q := by
  have hall : ∀ x ∈ charIndices 0 q, isScriptioContinua x.2 = true :=
    fun x hx => hq x.2 (mem_of_mem_charIndices hx)
  refine ⟨_, tokenize_of_run (Scan.foldlM_scriptio rfl hall) rfl, ?_⟩
  rw [flushCont_eq]
  show ([] ++ runTokens 0 ([] ++ charIndices 0 q)).map Token.text = _
  rw [List.nil_append, List.nil_append,
    runTokens_of_two_le (by rw [length_charIndices]; exact hlen), text_pairTokens,
    map_snd_charIndices]

/-- Its pairs are in the tokens of every text it is in. -/
theorem pairs_in_tokens (hlen : 2 ≤ q.length) (hq : ∀ c ∈ q, isScriptioContinua c = true)
    (h : q <:+: text) {s s' : Scan}
    (hrun : (charIndices 0 text).foldlM (Scan.step isAlphanumeric text) {} = .ok s)
    (hflush : s.flushWord text (byteLen text) = .ok s') :
    pairs q <:+: s'.flushCont.out.map Token.text := by
  have hcontains : s.Contains q := by
    obtain ⟨a, b, hab⟩ := h
    have hsplit : charIndices 0 text = charIndices 0 a ++ (charIndices (byteLen a) q ++
        charIndices (byteLen (a ++ q)) b) := by
      rw [← hab, charIndices_append, charIndices_append, List.append_assoc, Nat.zero_add,
        Nat.zero_add]
    rw [hsplit] at hrun
    obtain ⟨s1, -, hrun⟩ := Scan.of_foldlM_append hrun
    obtain ⟨s2, hmiddle, hrun⟩ := Scan.of_foldlM_append hrun
    refine Scan.Contains.run hlen (Or.inl ?_) hrun
    rw [Scan.cont_of_scriptio hq hmiddle, List.map_append, map_snd_charIndices]
    exact (List.suffix_append _ _).isInfix
  have hfinal := Scan.Contains.flushCont hlen (hcontains.flushWord hflush)
  rcases hfinal with hrun' | hpairs
  · have hnil := List.eq_nil_of_infix_nil hrun'
    rw [hnil] at hlen
    cases hlen
  · exact hpairs

/-- Tokens next to each other are at consecutive positions. -/
theorem Located.middle {front found back : List Token} (h : Located text (front ++ found ++ back)) :
    found.map Token.position = List.range' front.length found.length := by
  have hpos := h.positions
  have hrange : List.range (front ++ found ++ back).length =
      List.range' 0 front.length ++ (List.range' front.length found.length ++
        List.range' (front.length + found.length) back.length) := by
    rw [List.range'_append_1, List.length_append, List.length_append, List.range_eq_range',
      Nat.add_assoc, ← List.range'_append_1, Nat.zero_add]
  rw [hrange, List.append_assoc, List.map_append, List.map_append] at hpos
  have hrest := (List.append_inj hpos (by rw [List.length_map, List.length_range'])).2
  exact (List.append_inj hrest (by rw [List.length_map, List.length_range'])).1

/-- **Tokenization supports substring search.** A text comes apart into tokens, at the positions 0,
1, 2 and so on; each slices the text, and each character of a word or of a run is in one. The tokens
of a string of two or more characters written without blanks are found one after the other among
those of every text it is in. -/
theorem tokenize_spec (isAlphanumeric : Char → Bool) (text : List Char) :
    ∃ tokens, tokenize isAlphanumeric text = .ok tokens ∧
      tokens.map Token.position = List.range tokens.length ∧
      (∀ t ∈ tokens, strSlice text t.offsetFrom t.offsetTo = .ok t.text) ∧
      (∀ a c b, text = a ++ c :: b → (isAlphanumeric c = true ∨ isScriptioContinua c = true) →
        ∃ t ∈ tokens, t.offsetFrom ≤ byteLen a ∧ byteLen a + c.utf8Size ≤ t.offsetTo) ∧
      ∀ q, 2 ≤ q.length → (∀ c ∈ q, isScriptioContinua c = true) → q <:+: text →
        ∃ qs front found back, tokenize isAlphanumeric q = .ok qs ∧
          tokens = front ++ found ++ back ∧ found.map Token.text = qs.map Token.text ∧
          found.map Token.position = List.range' front.length found.length := by
  obtain ⟨s, hrun, hinv⟩ := (Scan.Inv.start isAlphanumeric text).run rfl
  obtain ⟨s', hflush, hinv', hnone⟩ := hinv.flushWord (List.append_nil text).symm
  have hfinal := hinv'.flushCont (List.append_nil text).symm
  have hword := (Scan.wordStart_flushCont s').trans hnone
  refine ⟨_, tokenize_of_run hrun hflush, hfinal.located.positions, hfinal.located.slices,
    hfinal.covers hword rfl, fun q hlen hq hpiece => ?_⟩
  obtain ⟨qs, hqs, htexts⟩ := tokenize_scriptio isAlphanumeric hlen hq
  obtain ⟨ta, tb, hsplit⟩ := pairs_in_tokens hlen hq hpiece hrun hflush
  obtain ⟨front', back, hout, hfront, rfl⟩ := List.map_eq_append_iff.mp hsplit.symm
  obtain ⟨front, found, rfl, rfl, hfound⟩ := List.map_eq_append_iff.mp hfront
  exact ⟨qs, front, found, back, hqs, hout, hfound.trans htexts.symm,
    Located.middle (hout ▸ hfinal.located)⟩

end NostrSearch.Core
