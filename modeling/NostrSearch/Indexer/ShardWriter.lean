import NostrSearch.Core.Event
import NostrSearch.Core.Num
import NostrSearch.Core.Shard
import NostrSearch.Lib.Cells
import NostrSearch.Lib.Run

/-!
# Per-shard index writers

`ShardManager` routes events to monthly shards, opens shards lazily and closes the
least-recently-written one when too many are open. Any number of threads call into it; this
file is the manager as those threads see it, one lock section or atomic operation at a time.

* `Shards` is what the threads share: the map of open shards, the shards themselves (each an
  `OpenShard` allocated once and referred to by its number, as an `Arc` is), and what is
  committed on disk.
* `Pc` is where one thread is in the call it is making, with the locals it holds there.
  Everything a thread keeps alive is in `Pc.handles`.
* `stepThread` is one step of one thread. What the code does not decide, the clock, the
  iteration order of a hash map, whether tantivy or the file system fails, comes in through
  an `Oracle`.

The search schema, language detection and the web-of-trust tier only decide what a document
contains; a document is its event here. Dropping an `IndexWriter` loses what was queued in it
since the last commit, so an `OpenShard` nothing refers to any more never reaches the disk.
-/

namespace NostrSearch.Indexer

open NostrSearch.Core NostrSearch.Lib

/-- How far ahead of the clock an event may be dated and still be indexed. -/
def maxFutureSkewSecs : ℕ := 86400

def isFuture (now ts : ℕ) : Bool := decide (satAdd now maxFutureSkewSecs < ts)

/-- Tunables for a shard writer: when to commit, and how many shards to hold open. -/
structure ShardWriterConfig where
  commitEveryDocs : ℕ
  commitEveryMs : ℕ
  maxOpenShards : ℕ

inductive ShardError
  | tantivy
  | io
  | openDirectory
  | futureTimestamp (ts : ℕ)
deriving DecidableEq

/-- A single open shard. `queued` is what its `IndexWriter` has been handed since the last
commit that reached the disk. -/
structure OpenShard where
  id : ShardId
  lastUsed : ℕ
  queued : List NostrEvent
  docsSinceCommit : ℕ
  lastCommitMs : ℕ
  totalDocs : ℕ

/-- What the threads of a `ShardManager` share. The map has at most one shard a month, each by
its number in `heap`; `next` is the number the next allocation gets. -/
structure Shards where
  map : Finmap (fun _ : ShardId => ℕ)
  heap : ℕ → OpenShard
  next : ℕ
  tick : ℕ
  disk : ShardId → List NostrEvent

namespace Shards

/-- Change one shard in place. -/
def modify (s : Shards) (c : ℕ) (f : OpenShard → OpenShard) : Shards :=
  { s with heap := Function.update s.heap c (f (s.heap c)) }

/-- `OpenShard::open` under the map lock: allocate a shard for `id` and put it in the map. -/
def openShard (s : Shards) (id : ShardId) (tick nowMs : ℕ) : Shards :=
  { s with
    map := s.map.insert id s.next
    heap := Function.update s.heap s.next
      { id := id, lastUsed := tick, queued := [], docsSinceCommit := 0, lastCommitMs := nowMs,
        totalDocs := 0 }
    next := s.next + 1 }

/-- A commit that succeeds: everything queued in the shard reaches the disk. -/
def flush (s : Shards) (c nowMs : ℕ) : Shards :=
  { s with
    heap := Function.update s.heap c
      { s.heap c with queued := [], docsSinceCommit := 0, lastCommitMs := nowMs }
    disk := Function.update s.disk (s.heap c).id
      (s.disk (s.heap c).id ++ (s.heap c).queued) }

/-- `OpenShard::commit`, under the write guard: nothing to do when no document was counted
since the last one. -/
def commit (s : Shards) (c : ℕ) (fail : Option ShardError) (nowMs : ℕ) :
    Shards × Option ShardError :=
  if (s.heap c).docsSinceCommit = 0 then (s, none)
  else
    match fail with
    | some e => (s, some e)
    | none => (s.flush c nowMs, none)

/-- `OpenShard::should_commit`. -/
def shouldCommit (cfg : ShardWriterConfig) (s : Shards) (c : ℕ) (nowMs : ℕ) : Bool :=
  let n := (s.heap c).docsSinceCommit
  decide (cfg.commitEveryDocs ≤ n ∨
    (0 < n ∧ cfg.commitEveryMs ≤ nowMs - (s.heap c).lastCommitMs))

/-- The open shards only the map holds. -/
def unshared (s : Shards) (strong : ℕ → ℕ) : Finset ShardId :=
  s.map.keys.filter fun id => (s.map.lookup id).any fun c => strong c == 1

def lastUsedOf (s : Shards) (id : ShardId) : ℕ :=
  ((s.map.lookup id).map fun c => (s.heap c).lastUsed).getD 0

/-- `id` is a least-recently-written shard among those only the map holds. Ties are broken by
the map's iteration order. -/
def isVictim (s : Shards) (strong : ℕ → ℕ) (id : ShardId) : Bool :=
  decide (id ∈ s.unshared strong ∧
    ∀ other ∈ s.unshared strong, s.lastUsedOf id ≤ s.lastUsedOf other)

end Shards

/-- A call a thread makes on the manager. -/
inductive Call
  | indexEvent (ev : NostrEvent)
  | tick
  | commitAll
  | closeShard (id : ShardId)
  | evictIfNeeded
deriving DecidableEq

/-- What a call hands back. -/
inductive Ret
  | unit
  | shard (id : ShardId)
  | err (e : ShardError)
deriving DecidableEq

/-- An `index_event` past its clock check: the shard it will answer with, the shard
`shard_for` computed, and its draw of the manager's tick. -/
structure Job where
  ev : NostrEvent
  ret : ShardId
  id : ShardId
  tick : ℕ
deriving DecidableEq

/-- Who is waiting for `evict_if_needed`. -/
inductive EvictCaller
  | api
  | shardFor (j : Job)
deriving DecidableEq

/-- Who is waiting for `close_shard`: a caller outside, or the eviction loop with so many
rounds left. -/
inductive CloseCaller
  | api (id : ShardId)
  | evict (left : ℕ) (k : EvictCaller)
deriving DecidableEq

/-- Where a thread is. -/
inductive Pc
  | idle
  | returned (c : Call) (r : Ret)
  | called (c : Call)
  /-- `shard_for`, before it draws a tick -/
  | route (ev : NostrEvent) (ret : ShardId)
  /-- `shard_for`, before the first look into the map -/
  | find (j : Job)
  /-- `evict_if_needed`, before it picks a victim -/
  | evicting (left : ℕ) (k : EvictCaller)
  /-- `close_shard`, before it takes its handle -/
  | closeFind (id : ShardId) (k : CloseCaller)
  | closeCommit (id : ShardId) (c : ℕ) (k : CloseCaller)
  /-- `close_shard`, committed, about to release its handle -/
  | closeDrop (id : ShardId) (c : ℕ) (k : CloseCaller)
  /-- `close_shard`, before the check and removal -/
  | closeRemove (id : ShardId) (k : CloseCaller)
  /-- `shard_for`, before the second look into the map -/
  | findOrOpen (j : Job)
  /-- `OpenShard::add`, before `add_document` -/
  | add (j : Job) (c : ℕ)
  /-- `OpenShard::add`, before `docs_since_commit.fetch_add` -/
  | countSince (j : Job) (c : ℕ)
  /-- `OpenShard::add`, before `total_docs.fetch_add` -/
  | countTotal (j : Job) (c : ℕ)
  | shouldCommit (j : Job) (c : ℕ)
  | commitDoc (j : Job) (c : ℕ)
  /-- `tick`, with the handles it has not looked at yet -/
  | ticking (todo : Multiset ℕ)
  | tickCommit (c : ℕ) (todo : Multiset ℕ)
  /-- `commit_all`: the handles of its snapshot, those still to commit, and the failures -/
  | committing (snap todo : Multiset ℕ) (errs : List ShardError)

/-- The handles a thread holds. -/
def Pc.handles : Pc → Multiset ℕ
  | .closeCommit _ c _ | .closeDrop _ c _ => {c}
  | .add _ c | .countSince _ c | .countTotal _ c | .shouldCommit _ c | .commitDoc _ c => {c}
  | .ticking todo => todo
  | .tickCommit c todo => c ::ₘ todo
  | .committing snap todo _ => snap + todo
  | _ => 0

/-- What the code leaves to its surroundings at one step. -/
structure Oracle where
  /-- a clock reading: seconds for `is_future` and `Utc::now`, milliseconds for commits -/
  now : ℕ := 0
  /-- the failure of the tantivy or file operation of this step, if it fails, and at the end of
  `commit_all` the failure that is answered -/
  fail : Option ShardError := none
  /-- the shard `min_by_key` answers with -/
  victim : Option ShardId := none
  /-- which of several handles is next -/
  worker : ℕ := 0

/-- The call an eviction was made for. -/
def EvictCaller.call : EvictCaller → Call
  | .api => .evictIfNeeded
  | .shardFor j => .indexEvent j.ev

def CloseCaller.call : CloseCaller → Call
  | .api id => .closeShard id
  | .evict _ k => k.call

/-- Where `evict_if_needed` returns to. -/
def EvictCaller.resume : EvictCaller → Pc
  | .api => .returned .evictIfNeeded .unit
  | .shardFor j => .findOrOpen j

/-- Where `close_shard` returns to. -/
def CloseCaller.resume : CloseCaller → Pc
  | .api id => .returned (.closeShard id) .unit
  | .evict left k => .evicting left k

/-- One step of one thread. `strong` is `Arc::strong_count`, read under the map lock. -/
def stepThread (cfg : ShardWriterConfig) (strong : ℕ → ℕ) (s : Shards) (o : Oracle) :
    Pc → Option (Shards × Pc)
  | .idle => none
  | .returned _ _ => none
  | .called (.indexEvent ev) =>
    if isFuture o.now ev.createdAt then
      some (s, .returned (.indexEvent ev) (.err (.futureTimestamp ev.createdAt)))
    else some (s, .route ev (ShardId.fromTimestamp o.now ev.createdAt))
  | .called .tick => some (s, .ticking (mapValues s.map))
  | .called .commitAll => some (s, .committing (mapValues s.map) (mapValues s.map) [])
  | .called (.closeShard id) => some (s, .closeFind id (.api id))
  | .called .evictIfNeeded => some (s, .evicting (max cfg.maxOpenShards 1 + 1) .api)
  | .route ev ret =>
    some ({ s with tick := s.tick + 1 },
      .find { ev := ev, ret := ret, id := ShardId.fromTimestamp o.now ev.createdAt,
              tick := s.tick + 1 })
  | .find j =>
    match s.map.lookup j.id with
    | some c => some (s.modify c fun sh => { sh with lastUsed := j.tick }, .add j c)
    | none => some (s, .evicting (max cfg.maxOpenShards 1 + 1) (.shardFor j))
  | .evicting 0 k => some (s, k.resume)
  | .evicting (left + 1) k =>
    if s.map.keys.card < max cfg.maxOpenShards 1 then some (s, k.resume)
    else
      match o.victim with
      | some id => if s.isVictim strong id then some (s, .closeFind id (.evict left k)) else none
      | none => if s.unshared strong = ∅ then some (s, k.resume) else none
  | .closeFind id k =>
    match s.map.lookup id with
    | some c => some (s, .closeCommit id c k)
    | none => some (s, k.resume)
  | .closeCommit id c k =>
    match s.commit c o.fail o.now with
    | (s', none) => some (s', .closeDrop id c k)
    | (s', some e) => some (s', .returned k.call (.err e))
  | .closeDrop id _ k => some (s, .closeRemove id k)
  | .closeRemove id k =>
    match s.map.lookup id with
    | some c =>
      if strong c = 1 then some ({ s with map := s.map.erase id }, k.resume)
      else some (s, k.resume)
    | none => some (s, k.resume)
  | .findOrOpen j =>
    match s.map.lookup j.id with
    | some c => some (s.modify c fun sh => { sh with lastUsed := j.tick }, .add j c)
    | none =>
      match o.fail with
      | some e => some (s, .returned (.indexEvent j.ev) (.err e))
      | none => some (s.openShard j.id j.tick o.now, .add j s.next)
  | .add j c =>
    match o.fail with
    | some e => some (s, .returned (.indexEvent j.ev) (.err e))
    | none =>
      some (s.modify c fun sh => { sh with queued := sh.queued ++ [j.ev] }, .countSince j c)
  | .countSince j c =>
    some (s.modify c fun sh => { sh with docsSinceCommit := sh.docsSinceCommit + 1 },
      .countTotal j c)
  | .countTotal j c =>
    some (s.modify c fun sh => { sh with totalDocs := sh.totalDocs + 1 }, .shouldCommit j c)
  | .shouldCommit j c =>
    if s.shouldCommit cfg c o.now then some (s, .commitDoc j c)
    else some (s, .returned (.indexEvent j.ev) (.shard j.ret))
  | .commitDoc j c =>
    match s.commit c o.fail o.now with
    | (s', none) => some (s', .returned (.indexEvent j.ev) (.shard j.ret))
    | (s', some e) => some (s', .returned (.indexEvent j.ev) (.err e))
  | .ticking todo =>
    if todo = 0 then some (s, .returned .tick .unit)
    else if o.worker ∈ todo then
      if s.shouldCommit cfg o.worker o.now then
        some (s, .tickCommit o.worker (todo.erase o.worker))
      else some (s, .ticking (todo.erase o.worker))
    else none
  | .tickCommit c todo =>
    match s.commit c o.fail o.now with
    | (s', none) => some (s', .ticking todo)
    | (s', some e) => some (s', .returned .tick (.err e))
  | .committing snap todo errs =>
    if todo = 0 then
      -- the first failure in the snapshot's order, which is the map's
      match errs, o.fail with
      | [], _ => some (s, .returned .commitAll .unit)
      | errs, some e => if e ∈ errs then some (s, .returned .commitAll (.err e)) else none
      | _, none => none
    else if o.worker ∈ todo then
      match s.commit o.worker o.fail o.now with
      | (s', e) => some (s', .committing snap (todo.erase o.worker) (e.toList ++ errs))
    else none

/-- A manager and the threads that call it. `acked` lists the events whose `index_event`
returned `Ok`, latest first. -/
structure Manager (T : Type) where
  shards : Shards
  threads : T → Pc
  acked : List NostrEvent

namespace Manager

variable {T : Type} [DecidableEq T] [Fintype T]

/-- The manager as a keyed map of shared cells. -/
def cells (s : Manager T) : Cells ShardId T :=
  { map := s.shards.map
    key := fun c => (s.shards.heap c).id
    next := s.shards.next
    held := fun t => (s.threads t).handles }

/-- `Arc::strong_count`: the map's handle and every thread's. -/
def strongCount (s : Manager T) (c : ℕ) : ℕ := s.cells.strongCount c

end Manager

/-- The event a thread has just been told is indexed. -/
def Pc.ackedEvent : Pc → Option NostrEvent
  | .returned (.indexEvent ev) (.shard _) => some ev
  | _ => none

/-- A thread starts a call, or takes the next step of the one it is in. -/
inductive Act (T : Type)
  | call (t : T) (c : Call)
  | go (t : T) (o : Oracle)

/-- Between two calls. -/
def Pc.resting : Pc → Bool
  | .idle | .returned _ _ => true
  | _ => false

namespace Manager

variable {T : Type} [DecidableEq T] [Fintype T]

/-- One step of the whole system. -/
def step (cfg : ShardWriterConfig) (s : Manager T) : Act T → Option (Manager T)
  | .call t c =>
    if (s.threads t).resting then
      some { s with threads := Function.update s.threads t (.called c) }
    else none
  | .go t o =>
    (stepThread cfg s.strongCount s.shards o (s.threads t)).map fun r =>
      { shards := r.1
        threads := Function.update s.threads t r.2
        acked := r.2.ackedEvent.toList ++ s.acked }

/-- A manager with no shard open over an empty index, and its threads idle. -/
def init : Manager T :=
  { shards :=
      { map := ∅
        heap := fun _ =>
          { id := { year := 1970, month := 1 }, lastUsed := 0, queued := [], docsSinceCommit := 0,
            lastCommitMs := 0, totalDocs := 0 }
        next := 0
        tick := 0
        disk := fun _ => [] }
    threads := fun _ => .idle
    acked := [] }

end Manager

end NostrSearch.Indexer
