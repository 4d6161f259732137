import NostrSearch.Core.Hex
import NostrSearch.Indexer.ShardEviction

/-!
# Bulk ingest: readers and checkpoints

The indexing pass of an archive ingest. Reader threads take batches of events through dedupe,
the fold, the shard writers and the pending set; a checkpoint commits every shard and then
claims the pending ids in the id store. Both run over one `ShardManager`, whose steps are the
steps of the threads inside its calls.

The pipeline lock is held over a reader's fold and over a whole checkpoint. Indexing, the
pending set and the dedupe lookup are outside it. What a fold does to the analyses has no part
in this file; that it waits for the lock does.

A crash keeps what is on disk, the committed documents and the id store, and nothing else.
-/

namespace NostrSearch.Indexer

open NostrSearch.Core NostrSearch.Lib

/-- `u8::from_str_radix(_, 16)` on two characters, which accepts a leading plus sign. -/
def fromStrRadix16 (a b : Char) : Option UInt8 :=
  if a = '+' then (hexDigit b).map UInt8.ofNat
  else do
    let x ← hexDigit a
    let y ← hexDigit b
    pure (UInt8.ofNat (16 * x + y))

def hex32 (hex : String) : Option Bytes32 := decode32 fromStrRadix16 hex

/-- The id an event is claimed under. -/
def claimId (ev : NostrEvent) : Bytes32 := (hex32 ev.id).getD (Vector.replicate 32 0)

/-- Which events in a batch still need indexing. -/
structure IndexPlan where
  /-- positions in the batch to index, in order -/
  toIndex : List ℕ
  /-- ids of those events, positionally aligned with `toIndex` -/
  newIds : List Bytes32
  skipped : ℕ

/-- One turn of the loop of `plan_index_work`. -/
def IndexPlan.add (known : List Bool) (pending : Bytes32 → Bool) (plan : IndexPlan)
    (entry : Bytes32 × ℕ) : IndexPlan :=
  if known.getD entry.2 false || pending entry.1 then { plan with skipped := plan.skipped + 1 }
  else { plan with toIndex := plan.toIndex ++ [entry.2], newIds := plan.newIds ++ [entry.1] }

def planIndexWork (ids : List Bytes32) (known : List Bool) (pending : Bytes32 → Bool) :
    IndexPlan :=
  ids.zipIdx.foldl (IndexPlan.add known pending) { toIndex := [], newIds := [], skipped := 0 }

/-- What the indexing loop goes through: the events at the positions of the plan, each with
the id to claim for it. -/
def IndexPlan.work (plan : IndexPlan) (batch : List NostrEvent) :
    List (NostrEvent × Option Bytes32) :=
  plan.toIndex.zipIdx.filterMap fun (i, n) => batch[i]?.map fun ev => (ev, plan.newIds[n]?)

/-- Where a thread of the ingest is. -/
inductive IngestPc
  | idle
  /-- a reader with a batch, before `contains_batch` -/
  | lookup (batch : List NostrEvent)
  /-- before it looks into the pending set -/
  | plan (batch : List NostrEvent) (known : List Bool)
  /-- before it folds the batch under the pipeline lock -/
  | fold (work : List (NostrEvent × Option Bytes32))
  /-- between two `index_event` calls, with the ids of those that returned `Ok` -/
  | index (work : List (NostrEvent × Option Bytes32)) (okIds : List Bytes32)
  /-- inside `index_event` -/
  | indexing (id : Option Bytes32) (work : List (NostrEvent × Option Bytes32))
      (okIds : List Bytes32)
  /-- before `ck_pending.extend` -/
  | extend (okIds : List Bytes32)
  /-- a checkpoint, before it has the pipeline lock -/
  | lock
  /-- with the lock, before `commit_all` -/
  | commit
  /-- inside `commit_all` -/
  | committing
  /-- before `IdStore::flush`, with the ids it took -/
  | flush (ids : Finset Bytes32)

/-- The ids a reader will add to the pending set. -/
def IngestPc.okIds : IngestPc → List Bytes32
  | .index _ okIds | .indexing _ _ okIds | .extend okIds => okIds
  | _ => []

/-- The work a reader has before it, the event it is indexing included. -/
def IngestPc.work : IngestPc → List (NostrEvent × Option Bytes32)
  | .fold work | .index work _ | .indexing _ work _ => work
  | _ => []

structure IngestOptions where
  shards : ShardWriterConfig
  dedupe : Bool

/-- An ingest: its shard writers, its threads, who has the pipeline lock, the pending set, and
the id store, if there is one. -/
structure Ingest (T : Type) where
  manager : Manager T
  threads : T → IngestPc
  lock : Option T
  pending : Finset Bytes32
  idStore : Option (Finset Bytes32)

/-- A reader is handed a batch, the checkpoint timer fires, a thread takes its next step, or
the process dies and is started again. -/
inductive IngestAct (T : Type)
  | batch (t : T) (events : List NostrEvent)
  | checkpoint (t : T)
  | go (t : T) (o : Oracle)
  | crash

namespace Ingest

variable {T : Type} [DecidableEq T] [Fintype T]

/-- Thread `t` goes on at `pc`. -/
def goto (s : Ingest T) (t : T) (pc : IngestPc) : Ingest T :=
  { s with threads := Function.update s.threads t pc }

/-- Let `t` move inside the call it is making on the manager. -/
def inManager (opts : IngestOptions) (s : Ingest T) (a : Act T) : Option (Ingest T) :=
  (Manager.step opts.shards s.manager a).map fun m => { s with manager := m }

def startAt (opts : IngestOptions) (s : Ingest T) (t : T) (c : Call) (pc : IngestPc) :
    Option (Ingest T) :=
  (s.inManager opts (.call t c)).map fun s' => s'.goto t pc

def stepThread (opts : IngestOptions) (s : Ingest T) (t : T) (o : Oracle) : Option (Ingest T) :=
  match s.threads t with
  | .idle => none
  | .lookup batch =>
    match if opts.dedupe then s.idStore else none with
    | some store => some (s.goto t (.plan batch (batch.map fun ev => claimId ev ∈ store)))
    | none => some (s.goto t (.fold (batch.map fun ev => (ev, none))))
  | .plan batch known =>
    let plan := planIndexWork (batch.map claimId) known fun id => id ∈ s.pending
    some (s.goto t (.fold (plan.work batch)))
  | .fold work => if s.lock = none then some (s.goto t (.index work [])) else none
  | .index [] okIds => some (s.goto t (.extend okIds))
  | .index ((ev, id) :: work) okIds =>
    s.startAt opts t (.indexEvent ev) (.indexing id work okIds)
  | .indexing id work okIds =>
    match s.manager.threads t with
    | .returned _ (.shard _) => some (s.goto t (.index work (okIds ++ id.toList)))
    | .returned _ _ => some (s.goto t (.index work okIds))
    | _ => s.inManager opts (.go t o)
  | .extend okIds => some ({ s with pending := s.pending ∪ okIds.toFinset }.goto t .idle)
  | .lock => if s.lock = none then some ({ s with lock := some t }.goto t .commit) else none
  | .commit => s.startAt opts t .commitAll .committing
  | .committing =>
    match s.manager.threads t with
    | .returned _ .unit =>
      match s.idStore with
      | some _ => some ({ s with pending := ∅ }.goto t (.flush s.pending))
      | none => some ({ s with lock := none }.goto t .idle)
    | .returned _ _ => some ({ s with lock := none }.goto t .idle)
    | _ => s.inManager opts (.go t o)
  | .flush ids =>
    match o.fail with
    | some _ => some ({ s with lock := none }.goto t .idle)
    | none =>
      some ({ s with lock := none, idStore := s.idStore.map fun store => store ∪ ids }.goto t .idle)

/-- The process starts on what is on disk. -/
def start (disk : ShardId → List NostrEvent) (idStore : Option (Finset Bytes32)) : Ingest T :=
  { manager := { (Manager.init : Manager T) with
      shards := { (Manager.init : Manager T).shards with disk := disk } }
    threads := fun _ => .idle
    lock := none
    pending := ∅
    idStore := idStore }

def step (opts : IngestOptions) (s : Ingest T) : IngestAct T → Option (Ingest T)
  | .batch t events =>
    match s.threads t with
    | .idle => some (s.goto t (.lookup events))
    | _ => none
  | .checkpoint t =>
    match s.threads t with
    | .idle => some (s.goto t .lock)
    | _ => none
  | .go t o => s.stepThread opts t o
  | .crash => some (start s.manager.shards.disk s.idStore)

end Ingest

end NostrSearch.Indexer
