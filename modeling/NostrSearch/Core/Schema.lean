import NostrSearch.Core.Event
import NostrSearch.Core.Text

/-!
# The document of an event

`NostrSchema::to_document` and the functions that bring tag text to the form it is indexed in. A
document has text in its text fields, any number of times, and one number in each of the others.
What the source takes from elsewhere is a parameter: `lower` is `to_lowercase`, and `profile` is
what serde makes of the content of a kind-0 event, a JSON object's members that are strings.
-/

namespace NostrSearch.Core

/-- The text fields of the schema. -/
inductive Field
  | eventId | pubkey | content | rawContent | title | summary | nip05
  | tagT | tagE | tagP | tagA | tagD | tagG | tagUrl | tagHost | tagL | lang
deriving DecidableEq

structure Document where
  text : Field → List (List Char)
  kind : ℕ
  createdAt : ℕ
  wotTier : ℕ

/-- `add_text`. -/
def Document.addText (d : Document) (f : Field) (v : List Char) : Document :=
  { d with text := Function.update d.text f (d.text f ++ [v]) }

/-- `add_text` of each value in turn. -/
def Document.addTexts (d : Document) (f : Field) (vs : List (List Char)) : Document :=
  vs.foldl (fun d v => d.addText f v) d

/-! ## Normal forms -/

/-- Lowercase a hex identifier. Text that is not hex is left alone. -/
def normalizeHex (s : List Char) : List Char :=
  if s.all isHexdigit then asciiLower s else s

/-- Normalize an `a` coordinate: of `kind:pubkey:d` the pubkey is hex, the rest is left alone. -/
def normalizeCoordinate (s : List Char) : List Char :=
  match afterFirst [':'] s with
  | none => s
  | some rest =>
    beforeFirst [':'] s ++ ':' :: normalizeHex (beforeFirst [':'] rest) ++
      ((afterFirst [':'] rest).map fun d => ':' :: d).getD []

/-- Normalize a NIP-05 identifier: lowercase, and the `_@domain` form is the bare domain. -/
def normalizeNip05 (lower : List Char → List Char) (s : List Char) : List Char :=
  withoutPrefix "_@".toList (lower (trim s))

/-- Host of a URL, with `www.` and any port removed. -/
def urlHost (lower : List Char → List Char) (url : List Char) : Option (List Char) :=
  let rest := (afterFirst "://".toList url).getD (trimStartSlashes url)
  let authority := afterLast '@' (rest.takeWhile fun c => c ≠ '/' ∧ c ≠ '?' ∧ c ≠ '#')
  let host := withoutPrefix "www.".toList (lower (authority.takeWhile fun c => c ≠ ':'))
  if '.' ∈ host ∧ host.head? ≠ some '.' ∧ host.getLast? ≠ some '.' then some host else none

def MAX_GEOHASH_PRECISION : ℕ := 9

def MIN_GEOHASH_PRECISION : ℕ := 2

/-- Every indexable prefix of a geohash, longest last. -/
def geohashPrefixes (lower : List Char → List Char) (g : List Char) : List (List Char) :=
  let g := lower (trim g)
  if g = [] ∨ ¬ g.all (fun c => c.toNat < 128 ∧ c.isAlphanum) then []
  else
    let chars := g.take MAX_GEOHASH_PRECISION
    (List.range' MIN_GEOHASH_PRECISION (chars.length + 1 - MIN_GEOHASH_PRECISION)).map chars.take

/-! ## Events -/

/-- The `d` identifier of an addressable event. -/
def NostrEvent.dTag (ev : NostrEvent) : Option String := (ev.tagValues "d").head?

/-- The first value of a tag. -/
def NostrEvent.tagValue (ev : NostrEvent) (name : String) : Option String :=
  (ev.tagValues name).head?

/-- Whether the event carries human-readable content. -/
def NostrEvent.isTextKind (ev : NostrEvent) : Bool :=
  [0, 1, 20, 21, 22, 1063, 1111, 1222, 1244, 1617, 1621, 1622, 9802, 30017, 30018, 30023, 30024,
    30311, 30402, 31922, 31923, 34550].contains ev.kind

/-- The values of some tags, as characters. -/
def NostrEvent.tagChars (ev : NostrEvent) (name : String) : List (List Char) :=
  (ev.tagValues name).map String.toList

/-- What the outside makes of text. -/
structure TextRules where
  lower : List Char → List Char
  profile : String → Option (String → Option (List Char))

/-- The profile fields of a kind-0 event. -/
def addProfile (rules : TextRules) (p : String → Option (List Char)) (d : Document) : Document :=
  let d := d.addTexts .title (["name", "display_name", "displayName", "username"].filterMap p)
  let d := d.addTexts .summary (["about", "bio"].filterMap p)
  let d := d.addTexts .nip05 ((p "nip05").toList.map (normalizeNip05 rules.lower))
  d.addTexts .tagHost (((p "website").bind (urlHost rules.lower)).toList)

/-- `r` and `u` tags: the URL and its host. -/
def addUrls (rules : TextRules) (urls : List (List Char)) (d : Document) : Document :=
  urls.foldl
    (fun d v => (d.addText .tagUrl v).addTexts .tagHost (urlHost rules.lower v).toList) d

/-- `NostrSchema::to_document`. -/
def toDocument (rules : TextRules) (ev : NostrEvent) (wotTier : ℕ) (lang : Option (List Char)) :
    Document :=
  let d : Document :=
    { text := fun _ => [], kind := ev.kind, createdAt := ev.createdAt, wotTier := wotTier }
  let d := d.addText .eventId (normalizeHex ev.id.toList)
  let d := d.addText .pubkey (normalizeHex ev.pubkey.toList)
  let d := d.addText .rawContent ev.content.toList
  let d := if ev.isTextKind then d.addText .content ev.content.toList else d
  let d := d.addTexts .lang lang.toList
  let d := d.addTexts .title
    ((["title", "subject"].filterMap ev.tagValue).map String.toList)
  let d := d.addTexts .summary
    ((["summary", "description", "alt"].filterMap ev.tagValue).map String.toList)
  let d :=
    match (if ev.kind = 0 then rules.profile ev.content else none) with
    | some p => addProfile rules p d
    | none => d
  let d := d.addTexts .tagT ((ev.tagChars "t").map rules.lower)
  let d := d.addTexts .tagE ((ev.tagChars "e").map normalizeHex)
  let d := d.addTexts .tagP ((ev.tagChars "p").map normalizeHex)
  let d := d.addTexts .tagA ((ev.tagChars "a").map normalizeCoordinate)
  let d := d.addTexts .tagD (ev.dTag.toList.map String.toList)
  let d := d.addTexts .tagG ((ev.tagChars "g").flatMap (geohashPrefixes rules.lower))
  let d := addUrls rules (ev.tagChars "r" ++ ev.tagChars "u") d
  d.addTexts .tagL (ev.tagChars "l")

/-! ## What a document has in a field -/

theorem Document.text_addText (d : Document) (f g : Field) (v : List Char) :
    (d.addText f v).text g = if g = f then d.text f ++ [v] else d.text g := by
  unfold addText
  dsimp only
  rw [Function.update_apply]

theorem Document.text_addTexts (d : Document) (f g : Field) (vs : List (List Char)) :
    (d.addTexts f vs).text g = if g = f then d.text f ++ vs else d.text g := by
  unfold addTexts
  induction vs generalizing d with
  | nil =>
    rw [List.foldl_nil, List.append_nil]
    split
    case isTrue h => rw [h]
    case isFalse => rfl
  | cons v vs ih =>
    rw [List.foldl_cons, ih, text_addText, text_addText, if_pos rfl]
    split
    case isTrue => rw [List.append_assoc, List.singleton_append]
    case isFalse => rfl

theorem text_addUrls (rules : TextRules) (urls : List (List Char)) (d : Document) (g : Field) :
    (addUrls rules urls d).text g =
      d.text g ++ (if g = .tagUrl then urls else []) ++
        (if g = .tagHost then urls.filterMap (urlHost rules.lower) else []) := by
  unfold addUrls
  induction urls generalizing d with
  | nil => simp
  | cons v urls ih =>
    rw [List.foldl_cons, ih, Document.text_addTexts, Document.text_addText, Document.text_addText,
      List.filterMap_cons]
    cases urlHost rules.lower v <;> cases g <;> simp

theorem text_addProfile (rules : TextRules) (p : String → Option (List Char)) (d : Document)
    {g : Field} (htitle : g ≠ .title) (hsummary : g ≠ .summary) :
    (addProfile rules p d).text g =
      d.text g ++ (if g = .nip05 then (p "nip05").toList.map (normalizeNip05 rules.lower) else []) ++
        (if g = .tagHost then ((p "website").bind (urlHost rules.lower)).toList else []) := by
  unfold addProfile
  simp only [Document.text_addTexts, if_neg htitle, if_neg hsummary]
  cases g <;> simp

/-- The profile of a kind-0 event. -/
def profileOf (rules : TextRules) (ev : NostrEvent) : Option (String → Option (List Char)) :=
  if ev.kind = 0 then rules.profile ev.content else none

/-- What a document has in the fields that are matched exactly. -/
theorem text_toDocument (rules : TextRules) (ev : NostrEvent) (wotTier : ℕ)
    (lang : Option (List Char)) :
    let d := toDocument rules ev wotTier lang
    d.text .pubkey = [normalizeHex ev.pubkey.toList] ∧
      d.text .tagT = (ev.tagChars "t").map rules.lower ∧
      d.text .tagE = (ev.tagChars "e").map normalizeHex ∧
      d.text .tagP = (ev.tagChars "p").map normalizeHex ∧
      d.text .tagA = (ev.tagChars "a").map normalizeCoordinate ∧
      d.text .tagD = ev.dTag.toList.map String.toList ∧
      d.text .nip05 = ((profileOf rules ev).bind fun p => p "nip05").toList.map
        (normalizeNip05 rules.lower) ∧
      d.text .tagHost =
        (((profileOf rules ev).bind fun p => p "website").bind (urlHost rules.lower)).toList ++
          (ev.tagChars "r" ++ ev.tagChars "u").filterMap (urlHost rules.lower) := by
  intro d
  have hprofile : (if ev.kind = 0 then rules.profile ev.content else none) = profileOf rules ev :=
    rfl
  show (toDocument rules ev wotTier lang).text .pubkey = _ ∧ _
  unfold d toDocument
  rw [hprofile]
  cases profileOf rules ev with
  | none =>
    cases ev.isTextKind <;>
      simp [Document.text_addTexts, Document.text_addText, text_addUrls]
  | some p =>
    cases ev.isTextKind <;>
      simp [Document.text_addTexts, Document.text_addText, text_addUrls, text_addProfile]

end NostrSearch.Core
