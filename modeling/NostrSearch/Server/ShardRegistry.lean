import NostrSearch.Core.Query
import Mathlib.Data.List.MinMax

/-!
# The shard registry

`ShardRegistry` opens the monthly indices under a root for reading. It keeps readers open, at most
`max_open` of them, and drops the least recently used one when there are more; and it remembers the
oldest month it has seen, from which a search without a lower bound starts. That month is looked up
again by `discover`: when the registry is opened, by `get_event` and `stats`, and by a search that
finds nothing to plan against.

A reader shows what its directory holds: readers reload on commit, and one that lags behind is not
modelled. A search is in `FanOut`.
-/

namespace NostrSearch.Server

open NostrSearch.Core

/-- The directory the registry is over, as `read_dir` lists it: its month directories, each with the
documents of its index in the order of their addresses, or `none` if no index opens in it. -/
abbrev Root := List (ShardId × Option (List Document))

/-- The months that have a directory. -/
def Root.months (root : Root) : List ShardId := root.map Prod.fst

/-- `open_reader`: what a new reader of a month shows, if the directory and an index are there. -/
def Root.openReader (root : Root) (id : ShardId) : Option (List Document) :=
  (root.lookup id).join

/-- What a reader of a month shows, with nothing for one that does not open. -/
def Root.docs (root : Root) (id : ShardId) : List Document := (root.openReader id).getD []

/-- The reader cache, and the LRU clock that orders it. -/
structure OpenShards where
  shards : List ShardId := []
  /-- shard → tick of its last use -/
  used : List (ShardId × ℕ) := []
  clock : ℕ := 0

namespace OpenShards

/-- Note a use of `id`. -/
def touch (o : OpenShards) (id : ShardId) : OpenShards :=
  { o with clock := o.clock + 1
           used := (id, o.clock + 1) :: o.used.filter fun e => e.1 ≠ id }

/-- The reader whose last use is the oldest. -/
def victim (o : OpenShards) : Option ShardId :=
  ((o.used.filter fun e => e.1 ∈ o.shards).argmin Prod.snd).map Prod.fst

/-- The loop of `evict_to_capacity`, in at most so many rounds. -/
def evictRounds (maxOpen : ℕ) : ℕ → OpenShards → OpenShards
  | 0, o => o
  | rounds + 1, o =>
    if maxOpen < o.shards.length then
      match o.victim with
      | none => o
      | some id =>
        evictRounds maxOpen rounds
          { o with shards := o.shards.erase id
                   used := o.used.filter fun e => e.1 ≠ id }
    else o

/-- Drop least recently used readers until at most `maxOpen` remain. Each round drops one. -/
def evictToCapacity (o : OpenShards) (maxOpen : ℕ) : OpenShards :=
  evictRounds maxOpen o.shards.length o

/-- `cached`: what the open reader of a month shows. -/
def cached (root : Root) (o : OpenShards) (id : ShardId) : Option (List Document) :=
  if id ∈ o.shards then some (root.docs id) else none

/-- `cached_or_transient`: an open reader, or a new one that is not kept. -/
def cachedOrTransient (root : Root) (o : OpenShards) (id : ShardId) : Option (List Document) :=
  o.cached root id <|> root.openReader id

/-- `shard`: an open reader, or a new one that is kept. -/
def shard (root : Root) (maxOpen : ℕ) (o : OpenShards) (id : ShardId) :
    OpenShards × Option (List Document) :=
  match o.cached root id with
  | some docs => (o.touch id, some docs)
  | none =>
    match root.openReader id with
    | none => (o, none)
    | some docs =>
      (({ o with shards := id :: o.shards }.touch id).evictToCapacity maxOpen, some docs)

variable {root : Root} {o : OpenShards}

/-- Whether it is kept or not, an opened reader shows the same. -/
theorem shard_snd (maxOpen : ℕ) (id : ShardId) :
    (o.shard root maxOpen id).2 = o.cachedOrTransient root id := by
  unfold shard cachedOrTransient
  cases o.cached root id with
  | some docs => rfl
  | none => cases root.openReader id <;> rfl

/-- A month shows what its directory holds, and nothing if it cannot be opened. -/
theorem elim_cachedOrTransient {β : Type} {f : List Document → List β} (hf : f [] = [])
    (id : ShardId) : (o.cachedOrTransient root id).elim [] f = f (root.docs id) := by
  unfold cachedOrTransient cached Root.docs
  by_cases h : id ∈ o.shards
  · rw [if_pos h]
    rfl
  · rw [if_neg h]
    cases root.openReader id with
    | none => exact hf.symm
    | some docs => rfl

end OpenShards

structure ShardRegistry where
  readers : OpenShards
  maxOpen : ℕ
  /-- oldest shard seen on disk -/
  earliest : ShardId

namespace ShardRegistry

/-- Scan the root for shard directories and record the earliest. -/
def discover (reg : ShardRegistry) (root : Root) : ShardRegistry :=
  match root.months.min? with
  | some e => { reg with earliest := e }
  | none => reg

/-- nostr genesis-ish default -/
def genesis : ShardId := { year := 2020, month := 11 }

/-- Open a registry over a root. -/
def openWithCapacity (root : Root) (maxOpen : ℕ) : ShardRegistry :=
  { readers := {}, maxOpen := max maxOpen 1, earliest := genesis : ShardRegistry }.discover root

/-- The reader a search plans against: any that is open, else that of the earliest shard, else,
after another look at the root, that of the earliest shard then. -/
def anchor (reg : ShardRegistry) (root : Root) : ShardRegistry × Bool :=
  if reg.readers.shards ≠ [] then (reg, true)
  else
    match reg.readers.shard root reg.maxOpen reg.earliest with
    | (readers, some _) => ({ reg with readers := readers }, true)
    | (_, none) =>
      let reg := reg.discover root
      let opened := reg.readers.shard root reg.maxOpen reg.earliest
      ({ reg with readers := opened.1 }, opened.2.isSome)

end ShardRegistry

/-- A hydrated search hit. -/
structure SearchHit (σ : Type) where
  eventId : List Char
  pubkey : List Char
  kind : ℕ
  createdAt : ℕ
  score : σ
  content : List Char
  title : Option (List Char)
  lang : Option (List Char)
  shard : ShardId
deriving DecidableEq

/-- The first text of a stored field; nothing reads as the empty text. -/
def getText (d : Document) (f : Field) : List Char := (d.text f).head?.getD []

/-- The first text of a stored field, unless it is empty. -/
def optText (d : Document) (f : Field) : Option (List Char) :=
  (d.text f).head?.filter fun v => v ≠ []

/-- `hydrate`: the hit of a stored document. -/
def hydrate {σ : Type} (d : Document) (score : σ) (shard : ShardId) : SearchHit σ :=
  { eventId := getText d .eventId
    pubkey := getText d .pubkey
    kind := d.kind % 2 ^ 16
    createdAt := d.createdAt
    score := score
    content := getText d .rawContent
    title := optText d .title
    lang := optText d .lang
    shard := shard }

namespace ShardRegistry

/-! ## Lookups and stats -/

/-- Every shard id present on disk, plus any already-open ones, in order. -/
def allShardIds (reg : ShardRegistry) (root : Root) : ShardRegistry × List ShardId :=
  (reg.discover root,
    ((reg.readers.shards ++ root.months).dedup).insertionSort (· ≤ ·))

/-- `find_in`: the term query's first document. All documents that have the term score the same. -/
def findIn {σ : Type} (one : σ) (id : ShardId) (docs : List Document) (eventId : List Char) :
    Option (SearchHit σ) :=
  (docs.find? (termQuery .eventId eventId)).map fun d => hydrate d one id

/-- Fetch a single event by id, from the open readers first, the latest month first. `one` is the
score 1.0. -/
def getEvent {σ : Type} (one : σ) (reg : ShardRegistry) (root : Root) (eventId : List Char) :
    ShardRegistry × Option (SearchHit σ) :=
  let listed := reg.allShardIds root
  let ids := listed.2.reverse
  let isOpen := fun id => (listed.1.readers.cached root id).isSome
  let order := ids.filter isOpen ++ ids.filter fun id => !isOpen id
  (listed.1, order.findSome? fun id =>
    (listed.1.readers.cachedOrTransient root id).bind fun docs => findIn one id docs eventId)

/-- The figures of `stats` that come from the shards. -/
structure RegistryStats where
  totalDocs : ℕ
  shardCount : ℕ
  openReaders : ℕ
  maxOpenReaders : ℕ
  shards : List (ShardId × ℕ)

/-- Cluster stats. A month that is not open is counted by its `meta.json`, without a reader. -/
def stats (reg : ShardRegistry) (root : Root) : ShardRegistry × RegistryStats :=
  let reg := reg.discover root
  let perShard := (root.months.insertionSort (· ≤ ·)).filterMap fun id =>
    (reg.readers.cachedOrTransient root id).map fun docs => (id, docs.length)
  (reg,
    { totalDocs := (perShard.map Prod.snd).sum
      shardCount := perShard.length
      openReaders := reg.readers.shards.length
      maxOpenReaders := reg.maxOpen
      shards := perShard })

end ShardRegistry

end NostrSearch.Server
