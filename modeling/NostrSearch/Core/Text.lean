import Mathlib.Tactic

/-!
# Strings

The functions of the standard library that tags, documents and queries are read with: `trim`,
`split(..).next()`, `truncate` at a character, `split_whitespace`, `parse::<u64>()` and the like.
Strings are lists of characters here; a byte offset is the number of bytes of the characters before
it.
-/

namespace NostrSearch.Core

instance lawfulBEqChars : LawfulBEq (List Char) := inferInstance

/-- `char::is_whitespace`. -/
def isWhitespace (c : Char) : Bool :=
  let n := c.toNat
  (9 ≤ n && n ≤ 13) || n = 0x20 || n = 0x85 || n = 0xa0 || n = 0x1680 ||
    (0x2000 ≤ n && n ≤ 0x200a) || n = 0x2028 || n = 0x2029 || n = 0x202f || n = 0x205f || n = 0x3000

/-- `str::trim`. -/
def trim (s : List Char) : List Char :=
  ((s.dropWhile isWhitespace).reverse.dropWhile isWhitespace).reverse

/-- `split(sep).next()`: what stands before the first `sep`, which is everything if there is
none. -/
def beforeFirst (sep : List Char) : List Char → List Char
  | [] => []
  | c :: cs => if sep.isPrefixOf (c :: cs) then [] else c :: beforeFirst sep cs

/-- `char_indices`, from the byte offset `pos`. -/
def charIndices (pos : ℕ) : List Char → List (ℕ × Char)
  | [] => []
  | c :: cs => (pos, c) :: charIndices (pos + c.utf8Size) cs

/-- The bytes of a string. -/
def byteLen (s : List Char) : ℕ := (s.map Char.utf8Size).sum

/-- `truncate(end)`, at a character boundary. -/
def truncate (stop : ℕ) (s : List Char) : List Char :=
  ((charIndices 0 s).filter fun x => x.1 < stop).map Prod.snd

/-- `parse::<u64>()`: decimal digits, with a plus sign allowed in front. -/
def parseU64 (s : String) : Option ℕ :=
  let digits := match s.toList with
    | '+' :: cs => cs
    | cs => cs
  if digits ≠ [] ∧ digits.all Char.isDigit then
    let n := Nat.ofDigitChars 10 digits 0
    if n < 2 ^ 64 then some n else none
  else none

/-- `parse` to an unsigned number of so many bits. -/
def parseUnsigned (bits : ℕ) (s : List Char) : Option ℕ :=
  let digits := match s with
    | '+' :: cs => cs
    | cs => cs
  if digits ≠ [] ∧ digits.all Char.isDigit then
    let n := Nat.ofDigitChars 10 digits 0
    if n < 2 ^ bits then some n else none
  else none

/-- `strip_prefix`. -/
def stripPrefix (pre s : List Char) : Option (List Char) :=
  if pre.isPrefixOf s then some (s.drop pre.length) else none

/-- `strip_prefix(pre).unwrap_or(s)`. -/
def withoutPrefix (pre s : List Char) : List Char := (stripPrefix pre s).getD s

/-- What stands after the first `sep`, if there is one: the second part of `split_once`. -/
def afterFirst (sep : List Char) : List Char → Option (List Char)
  | [] => none
  | c :: cs => if sep.isPrefixOf (c :: cs) then some ((c :: cs).drop sep.length)
    else afterFirst sep cs

/-- `rsplit(c).next()`: what stands after the last `c`, which is everything if there is none. -/
def afterLast (c : Char) (s : List Char) : List Char :=
  (s.reverse.takeWhile fun x => x ≠ c).reverse

/-- `trim_start_matches("//")`: as many pairs of slashes as there are. -/
def trimStartSlashes : List Char → List Char
  | '/' :: '/' :: cs => trimStartSlashes cs
  | cs => cs

/-- The words of a string of which `word`, the start of the next one, has been read already. -/
def splitWhitespaceFrom (word : List Char) : List Char → List (List Char)
  | [] => if word = [] then [] else [word]
  | c :: cs =>
    if isWhitespace c then
      if word = [] then splitWhitespaceFrom [] cs else word :: splitWhitespaceFrom [] cs
    else splitWhitespaceFrom (word ++ [c]) cs

/-- `split_whitespace`. -/
def splitWhitespace (s : List Char) : List (List Char) := splitWhitespaceFrom [] s

/-- `join(" ")`. -/
def joinWords (words : List (List Char)) : List Char := [' '].intercalate words

/-- `u8::is_ascii_hexdigit`, of a character. -/
def isHexdigit (c : Char) : Bool :=
  ('0' ≤ c && c ≤ '9') || ('a' ≤ c && c ≤ 'f') || ('A' ≤ c && c ≤ 'F')

/-- `to_ascii_lowercase`. -/
def asciiLower (s : List Char) : List Char := s.map Char.toLower

/-- `contains`, of a piece of text. -/
def containsText (s piece : List Char) : Bool := decide (piece <:+: s)

/-! ## Words -/

theorem splitWhitespaceFrom_append {w rest : List Char} (h : ∀ c ∈ w, isWhitespace c = false)
    (word : List Char) :
    splitWhitespaceFrom word (w ++ rest) = splitWhitespaceFrom (word ++ w) rest := by
  induction w generalizing word with
  | nil => rw [List.nil_append, List.append_nil]
  | cons c w ih =>
    have hc : isWhitespace c = false := h c List.mem_cons_self
    rw [List.cons_append, splitWhitespaceFrom, hc]
    simp only [Bool.false_eq_true, if_false]
    rw [ih (fun x hx => h x (List.mem_cons_of_mem c hx)), List.append_assoc, List.singleton_append]

/-- The words of a string are not empty and have no blanks. -/
theorem mem_splitWhitespaceFrom {word s w : List Char} (hword : ∀ c ∈ word, isWhitespace c = false)
    (h : w ∈ splitWhitespaceFrom word s) : w ≠ [] ∧ ∀ c ∈ w, isWhitespace c = false := by
  induction s generalizing word with
  | nil =>
    rw [splitWhitespaceFrom] at h
    split at h
    case isTrue => cases h
    case isFalse hne =>
      rw [List.mem_singleton] at h
      subst h
      exact ⟨hne, hword⟩
  | cons c cs ih =>
    rw [splitWhitespaceFrom] at h
    split at h
    case isTrue =>
      split at h
      case isTrue => exact ih (fun x hx => by cases hx) h
      case isFalse hne =>
        rcases List.mem_cons.mp h with rfl | h
        · exact ⟨hne, hword⟩
        · exact ih (fun x hx => by cases hx) h
    case isFalse hc =>
      refine ih (fun x hx => ?_) h
      rcases List.mem_append.mp hx with hx | hx
      · exact hword x hx
      · rw [List.mem_singleton] at hx
        subst hx
        exact Bool.eq_false_iff.mpr hc

/-- Words joined with blanks come apart again. -/
theorem splitWhitespace_joinWords {words : List (List Char)}
    (h : ∀ w ∈ words, w ≠ [] ∧ ∀ c ∈ w, isWhitespace c = false) :
    splitWhitespace (joinWords words) = words := by
  induction words with
  | nil => rfl
  | cons w words ih =>
    obtain ⟨hne, hw⟩ := h w List.mem_cons_self
    have hrest := ih fun x hx => h x (List.mem_cons_of_mem w hx)
    unfold splitWhitespace joinWords at *
    cases words with
    | nil =>
      have hone : [' '].intercalate [w] = w ++ [] := by simp [List.intercalate]
      rw [hone, splitWhitespaceFrom_append hw, List.nil_append, splitWhitespaceFrom, if_neg hne]
    | cons v words =>
      have hcons : [' '].intercalate (w :: v :: words) =
          w ++ ' ' :: [' '].intercalate (v :: words) := by simp [List.intercalate]
      rw [hcons, splitWhitespaceFrom_append hw, List.nil_append, splitWhitespaceFrom,
        if_pos (by decide), if_neg hne, hrest]

end NostrSearch.Core
