import NostrSearch.Core.Text
import NostrSearch.Lib.Buckets
import NostrSearch.Stats.Counter
import NostrSearch.Stats.Registry
import Mathlib.Data.String.Basic

/-!
# Trending hashtags

Mentions by hour over a window of a week. An author counts once for a tag in an hour: a bucket
keeps who it has `seen`, next to the counts this guards. What is seen is not part of a checkpoint.

Weights and scores are floating point in the source and of any type here, with the operations of
`Scores`. Lowercasing is a parameter. A count is that of the authors of an hour and taken to fit.
-/

namespace NostrSearch.Stats

open NostrSearch.Core NostrSearch.Lib

def HOUR : ℕ := 3600

def WINDOW_HOURS : ℕ := 7 * 24

def MAX_TAG_LEN : ℕ := 64

def TOP : ℕ := 100

def TEXT_KINDS : List ℕ := [1, 20, 21, 22, 1111, 9802, 30023]

/-- The floating-point numbers of the ranking. -/
structure Scores (F : Type) where
  zero : F
  add : F → F → F
  mul : F → F → F
  /-- what a mention by an author of a tier weighs -/
  weight : ℕ → F
  /-- `0.5_f64.powf(age / HALF_LIFE_HOURS)` -/
  decay : ℕ → F
  partialCmp : F → F → Option Ordering

structure TrendingTag (F : Type) where
  tag : String
  score : F
  mentions : ℕ
  authors24h : ℕ

structure HourBucket (F : Type) where
  weight : Finmap (fun _ : String => F)
  mentions : Finmap (fun _ : String => ℕ)
  seen : Finset (String × Pubkey)

structure TrendingHashtags (F : Type) where
  hours : Finmap (fun _ : ℕ => HourBucket F)
  now : ℕ

/-- The sums over the buckets that `ranked` goes through. -/
structure Tally (F : Type) where
  score : Finmap (fun _ : String => F)
  mentions : Finmap (fun _ : String => ℕ)
  recent : Finmap (fun _ : String => ℕ)

variable {F : Type}

namespace HourBucket

def default : HourBucket F := { weight := ∅, mentions := ∅, seen := ∅ }

/-- How often a tag is mentioned. -/
def count (b : HourBucket F) (tag : String) : ℕ := (b.mentions.lookup tag).getD 0

/-- One turn of the loop over the tags of an event. -/
def note (fl : Scores F) (weight : F) (author : Pubkey) (acc : HourBucket F × Bool)
    (tag : String) : HourBucket F × Bool :=
  if (tag, author) ∈ acc.1.seen then acc
  else
    ({ weight := atEntry acc.1.weight tag fl.zero fun w => fl.add w weight
       mentions := atEntry acc.1.mentions tag 0 fun n => n + 1
       seen := insert (tag, author) acc.1.seen }, true)

def merge (fl : Scores F) (slot b : HourBucket F) : HourBucket F :=
  { weight := absorb slot.weight fl.zero fl.add b.weight
    mentions := absorb slot.mentions 0 (· + ·) b.mentions
    seen := slot.seen ∪ b.seen }

end HourBucket

namespace TrendingHashtags

def default : TrendingHashtags F := { hours := ∅, now := 0 }

/-- A tag as it is counted. `lower` is `to_lowercase`. -/
def normalize (lower : List Char → List Char) (tag : String) : Option String :=
  let t := lower ((trim tag.toList).dropWhile fun c => c = '#')
  if t ≠ [] ∧ byteLen t ≤ MAX_TAG_LEN then some (String.ofList t) else none

/-- The first hour of the window. -/
def floor (now : ℕ) : ℕ := (now / HOUR - WINDOW_HOURS) * HOUR

def prune (now : ℕ) (s : TrendingHashtags F) : TrendingHashtags F :=
  { s with hours := retain s.hours fun hour => floor now ≤ hour }

/-- Whether an event is in the window. -/
def accepts (ev : NostrEvent) (now : ℕ) : Bool :=
  decide (¬ (ev.createdAt < floor now ∨ wrapAdd now HOUR < ev.createdAt))

def hourOf (ev : NostrEvent) : ℕ := ev.createdAt - ev.createdAt % HOUR

/-- The tags of an event, each once. -/
def tagsOf (lower : List Char → List Char) (ev : NostrEvent) : Finset String :=
  ((ev.tagValues "t").filterMap (normalize lower)).toFinset

/-- What an event adds to the bucket of its hour, and whether it adds anything. The source goes
through the tags in hash order, which makes no difference as no tag comes twice. -/
def noteTags (lower : List Char → List Char) (fl : Scores F) (ev : NostrEvent)
    (ctx : AnalysisCtx) (b : HourBucket F) : HourBucket F × Bool :=
  ((tagsOf lower ev).sort (· ≤ ·)).foldl
    (HourBucket.note fl (fl.weight ctx.authorTier) ctx.author) (b, false)

def observe (lower : List Char → List Char) (fl : Scores F) (ev : NostrEvent)
    (ctx : AnalysisCtx) (s : TrendingHashtags F) : TrendingHashtags F × Bool :=
  let s := { s with now := max s.now ctx.now }
  if accepts ev ctx.now then
    let r := noteTags lower fl ev ctx ((s.hours.lookup (hourOf ev)).getD HourBucket.default)
    let s := { s with hours := s.hours.insert (hourOf ev) r.1 }
    if WINDOW_HOURS + 2 < s.hours.keys.card then (s.prune ctx.now, r.2) else (s, r.2)
  else (s, false)

def merge (fl : Scores F) (s other : TrendingHashtags F) : TrendingHashtags F :=
  { hours := absorb s.hours HourBucket.default (HourBucket.merge fl) other.hours
    now := max s.now other.now }

/-- What is left after a checkpoint: nothing that was seen. -/
def restored (s : TrendingHashtags F) : TrendingHashtags F :=
  { hours := mapBuckets s.hours HourBucket.default fun b => { b with seen := ∅ }
    now := 0 }

/-- One bucket of the loop of `ranked`. -/
def tallyHour (fl : Scores F) (nowHour : ℕ) (t : Tally F) (start : ℕ) (b : HourBucket F) :
    Tally F :=
  let age := nowHour - start / HOUR
  { score := absorb t.score fl.zero (fun x w => fl.add x (fl.mul w (fl.decay age))) b.weight
    mentions := absorb t.mentions 0 (· + ·) b.mentions
    recent := if age < 24 then absorb t.recent 0 (· + ·) b.mentions else t.recent }

def tally (fl : Scores F) (now : ℕ) (s : TrendingHashtags F) : Tally F :=
  (s.hours.keys.sort (· ≤ ·)).foldl
    (fun t start => (s.hours.lookup start).elim t (tallyHour fl (now / HOUR) t start))
    { score := ∅, mentions := ∅, recent := ∅ }

/-- The order of the ranking. -/
def before (fl : Scores F) (a b : TrendingTag F) : Bool :=
  ((((fl.partialCmp b.score a.score).getD .eq).then (compare a.tag b.tag)).isLE)

/-- The tags with their sums, in no order that matters. -/
def listed (fl : Scores F) (now : ℕ) (s : TrendingHashtags F) : List (TrendingTag F) :=
  let t := s.tally fl now
  (t.score.keys.sort (· ≤ ·)).filterMap fun tag =>
    (t.score.lookup tag).map fun score =>
      { tag := tag
        score := score
        mentions := (t.mentions.lookup tag).getD 0
        authors24h := (t.recent.lookup tag).getD 0 }

def ranked (fl : Scores F) (now : ℕ) (s : TrendingHashtags F) : List (TrendingTag F) :=
  ((s.listed fl now).mergeSort (before fl)).take TOP

-- an event is decided on by the lemmas about `accepts`, not by evaluation
attribute [irreducible] accepts

/-- `trending_hashtags` as the registry sees it. At a refresh the clock says `wall`. -/
def analysis {ε : Type} (lower : List Char → List Char) (fl : Scores F) (wall : ℕ) :
    DynAnalysis (TrendingHashtags F) ε where
  name := "trending_hashtags"
  epoch := 1
  deps := ["follow_graph"]
  refreshInterval := some HOUR
  kinds := some TEXT_KINDS
  default := default
  attach := fun _ s => s
  observe := fun ev ctx ext s =>
    ((observe lower fl ev ctx s).1, ext, (observe lower fl ev ctx s).2)
  refresh := fun _ s => s.prune wall
  contribute := fun _ w => w
  onReset := fun _ ext => ext
  restored := restored

end TrendingHashtags

end NostrSearch.Stats
