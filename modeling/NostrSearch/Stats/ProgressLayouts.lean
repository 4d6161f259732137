import NostrSearch.Lib.Positional
import NostrSearch.Stats.Store

/-!
# Progress in older layouts

Before progress was split it was one bincode record, which gained a field at its end: `ProgressV0`
has no rebuild position, `ProgressV1` has one. `load` tries the newer one first, and a record of the
older one is too short for it. So what is read of either is what was written, with the default for
what was not there (`decodeLegacy_V1`, `decodeLegacy_V0`), as it is of the split files
(`load_save`).

The files are their bytes here. Metadata is JSON, and `serde_json` is a parameter: `fromSlice` and
`toVec`. `load_files` is that `load` of the decoded files says the same.
-/

namespace NostrSearch.Stats

open NostrSearch.Core NostrSearch.Lib Positional

/-- Progress with the duration of its last refresh, which nothing else here reads. -/
structure FullProgress extends Progress where
  /-- `last_refresh_micros` of the counters -/
  lastRefreshMicros : ℕ

structure FullMeta extends ProgressMeta where
  lastRefreshMicros : ℕ

namespace FullMeta

def ofProgress (p : FullProgress) : FullMeta :=
  { ProgressMeta.ofProgress p.toProgress with lastRefreshMicros := p.lastRefreshMicros }

def toFull (m : FullMeta) : FullProgress :=
  { m.toProgressMeta.toProgress with lastRefreshMicros := m.lastRefreshMicros }

end FullMeta

/-! ## The records -/

/-- The counters, and the duration of the last refresh. -/
def countersRecord : Decoder (Counters × ℕ) := do
  let observed ← uint 8
  let consumed ← uint 8
  let filtered ← uint 8
  let refreshCount ← uint 8
  let lastRefreshMicros ← uint 8
  return ({ observed, consumed, filtered, refreshCount }, lastRefreshMicros)

def rebuildRecord : Decoder Rebuild := do
  let completed ← many str
  let file ← str
  let lastId ← str
  return { completed, file, lastId }

/-- The bincode layout written before `rebuild` existed. -/
def progressV0 : Decoder FullProgress := do
  let epoch ← uint 4
  let watermark ← uint 8
  let boundary ← many (block 32)
  let events ← uint 8
  let backfilled ← bool
  let lastRefreshWall ← uint 8
  let (counters, lastRefreshMicros) ← countersRecord
  return { epoch, watermark, boundary := boundary.toFinset, events, backfilled, lastRefreshWall
           counters, rebuild := {}, lastRefreshMicros }

/-- The bincode layout written after `rebuild` was added, before the split: the same fields, and
`rebuild` behind them. -/
def progressV1 : Decoder FullProgress := do
  let p ← progressV0
  let rebuild ← rebuildRecord
  return { p with rebuild }

/-- Each layout that could have been written, newest first. -/
def decodeLegacy (raw : List UInt8) : Option FullProgress :=
  match deserialize progressV1 raw with
  | some p => some p
  | none => deserialize progressV0 raw

/-- Progress that a record can hold: numbers that fit their width, and lengths theirs. -/
structure ProgressRecord where
  progress : FullProgress
  /-- the boundary set in the order of the hash set -/
  ids : List EventId
  toFinset_ids : ids.toFinset = progress.boundary
  length_ids : ids.length < 2 ^ 64
  epoch : progress.epoch < 2 ^ 32
  watermark : progress.watermark < 2 ^ 64
  events : progress.events < 2 ^ 64
  lastRefreshWall : progress.lastRefreshWall < 2 ^ 64
  observed : progress.counters.observed < 2 ^ 64
  consumed : progress.counters.consumed < 2 ^ 64
  filtered : progress.counters.filtered < 2 ^ 64
  refreshCount : progress.counters.refreshCount < 2 ^ 64
  lastRefreshMicros : progress.lastRefreshMicros < 2 ^ 64
  completed : progress.rebuild.completed.length < 2 ^ 64
  names : ∀ name ∈ progress.rebuild.completed, name.utf8ByteSize < 2 ^ 64
  file : progress.rebuild.file.utf8ByteSize < 2 ^ 64
  lastId : progress.rebuild.lastId.utf8ByteSize < 2 ^ 64

namespace ProgressRecord

def countersBytes (c : Counters) (lastRefreshMicros : ℕ) : List UInt8 :=
  [toLE c.observed 8, toLE c.consumed 8, toLE c.filtered 8, toLE c.refreshCount 8,
    toLE lastRefreshMicros 8].flatten

def rebuildBytes (r : Rebuild) : List UInt8 :=
  [putMany putStr r.completed, putStr r.file, putStr r.lastId].flatten

/-- The record without its rebuild position. -/
def bytesV0 (r : ProgressRecord) : List UInt8 :=
  [toLE r.progress.epoch 4, toLE r.progress.watermark 8, putMany Vector.toList r.ids,
    toLE r.progress.events 8, putBool r.progress.backfilled, toLE r.progress.lastRefreshWall 8,
    countersBytes r.progress.counters r.progress.lastRefreshMicros].flatten

def bytesV1 (r : ProgressRecord) : List UInt8 := r.bytesV0 ++ rebuildBytes r.progress.rebuild

theorem reads_counters (r : ProgressRecord) :
    Reads countersRecord (countersBytes r.progress.counters r.progress.lastRefreshMicros)
      (r.progress.counters, r.progress.lastRefreshMicros) := by
  have hobserved := r.observed
  have hconsumed := r.consumed
  have hfiltered := r.filtered
  have hrefreshCount := r.refreshCount
  have hmicros := r.lastRefreshMicros
  apply (reads_uint (by omega)).bind
  apply (reads_uint (by omega)).bind
  apply (reads_uint (by omega)).bind
  apply (reads_uint (by omega)).bind
  apply (reads_uint (by omega)).bind
  exact Reads.pure _

theorem reads_rebuild (r : ProgressRecord) :
    Reads rebuildRecord (rebuildBytes r.progress.rebuild) r.progress.rebuild := by
  apply (reads_many r.completed fun name hname => reads_str (r.names name hname)).bind
  apply (reads_str r.file).bind
  apply (reads_str r.lastId).bind
  exact Reads.pure _

theorem reads_V0 (r : ProgressRecord) :
    Reads progressV0 r.bytesV0 { r.progress with rebuild := {} } := by
  have hepoch := r.epoch
  have hwatermark := r.watermark
  have hevents := r.events
  have hwall := r.lastRefreshWall
  apply (reads_uint (by omega)).bind
  apply (reads_uint (by omega)).bind
  apply (reads_many r.length_ids fun id _ => reads_block id).bind
  apply (reads_uint (by omega)).bind
  apply (reads_bool _).bind
  apply (reads_uint (by omega)).bind
  apply r.reads_counters.bind
  rw [r.toFinset_ids]
  exact Reads.pure _

theorem reads_V1 (r : ProgressRecord) : Reads progressV1 r.bytesV1 r.progress :=
  r.reads_V0.bind (r.reads_rebuild.last (Reads.pure r.progress))

/-- A record without a rebuild position ends where it would be. -/
theorem bytesV0_short (r : ProgressRecord) : deserialize progressV1 r.bytesV0 = none :=
  deserialize_short r.reads_V0 (Short.bind (Short.bind short_many))

theorem decodeLegacy_V1 (r : ProgressRecord) : decodeLegacy r.bytesV1 = some r.progress := by
  rw [decodeLegacy, deserialize_reads r.reads_V1]

theorem decodeLegacy_V0 (r : ProgressRecord) :
    decodeLegacy r.bytesV0 = some { r.progress with rebuild := {} } := by
  rw [decodeLegacy, r.bytesV0_short, deserialize_reads r.reads_V0]

end ProgressRecord

/-! ## The files -/

/-- The files of one analysis, as they are on disk. -/
structure RawFiles where
  /-- `<name>.state.bin` -/
  state : Option (List UInt8)
  /-- `<name>.progress.json` -/
  progress : Option (List UInt8)
  /-- `<name>.progress.bin`, of an older build -/
  legacy : Option (List UInt8)
  /-- `<name>.boundary.bin` -/
  boundary : Option (List UInt8)

namespace RawFiles

/-- `load`, with its files. -/
def load (fromSlice : List UInt8 → Option FullMeta) (name : String) (f : RawFiles) :
    Except LoadError (Option (List UInt8 × FullProgress)) := do
  let some state := f.state | return none
  if f.progress.isNone && f.legacy.isNone then return none
  let progress ←
    match f.progress with
    | some bytes =>
      match fromSlice bytes with
      | some m => pure m.toFull
      | none => throw (.decoding (name ++ ".progress.json"))
    | none =>
      match decodeLegacy (f.legacy.getD []) with
      | some p => pure p
      | none => throw (.decoding (name ++ ".progress.bin"))
  let progress :=
    match f.boundary with
    | some bytes => { progress with boundary := (blocks 32 bytes).toFinset }
    | none => progress
  return some (state, progress)

/-- What `save` leaves. The ids are in the order of the hash set. -/
def save (toVec : FullMeta → List UInt8) (state : List UInt8) (p : FullProgress)
    (ids : List EventId) : RawFiles :=
  { state := some state
    progress := some (toVec (FullMeta.ofProgress p))
    legacy := none
    boundary := some (ids.flatMap Vector.toList) }

/-- What an older build left: all of the progress in one file. -/
def old (state raw : List UInt8) : RawFiles :=
  { state := some state, progress := none, legacy := some raw, boundary := none }

/-- The files as `Store` has them, decoded. -/
def files (fromSlice : List UInt8 → Option FullMeta) (f : RawFiles) : Files :=
  { state := f.state
    progress := f.progress.map fun bytes => (fromSlice bytes).map FullMeta.toProgressMeta
    legacy := f.legacy.map fun raw => (decodeLegacy raw).map FullProgress.toProgress
    boundary := f.boundary }

/-- Decoding the files first comes to the same. -/
theorem load_files (fromSlice : List UInt8 → Option FullMeta) (name : String) (f : RawFiles) :
    Stats.load (fun _ => f.files fromSlice) name =
      (f.load fromSlice name).map (Option.map fun x => (x.1, x.2.toProgress)) := by
  obtain ⟨state, progress, legacy, boundary⟩ := f
  cases state with
  | none => rfl
  | some state =>
    cases progress with
    | some bytes =>
      cases hm : fromSlice bytes with
      | none =>
        simp only [Stats.load, load, files, Files.hasProgress, Files.loadProgress, hm,
          Option.map_some, Option.map_none, Option.isSome_some, Option.isNone_some]
        cases boundary <;> rfl
      | some m =>
        simp only [Stats.load, load, files, Files.hasProgress, Files.loadProgress, hm,
          Option.map_some, Option.isSome_some, Option.isNone_some]
        cases boundary <;> rfl
    | none =>
      cases legacy with
      | none => rfl
      | some raw =>
        cases hp : decodeLegacy raw with
        | none =>
          simp only [Stats.load, load, files, Files.hasProgress, Files.loadProgress, hp,
            Option.map_some, Option.map_none, Option.isSome_some, Option.isNone_some,
            Option.getD_some]
          cases boundary <;> rfl
        | some p =>
          simp only [Stats.load, load, files, Files.hasProgress, Files.loadProgress, hp,
            Option.map_some, Option.map_none, Option.isSome_some, Option.isNone_some,
            Option.getD_some]
          cases boundary <;> rfl

variable (fromSlice : List UInt8 → Option FullMeta) (name : String) (state : List UInt8)

theorem load_old {raw : List UInt8} {p : FullProgress} (h : decodeLegacy raw = some p) :
    (old state raw).load fromSlice name = .ok (some (state, p)) := by
  simp only [load, old, Option.getD_some, h]
  rfl

theorem load_save {toVec : FullMeta → List UInt8} {p : FullProgress} {ids : List EventId}
    (hids : ids.toFinset = p.boundary)
    (hmeta : fromSlice (toVec (FullMeta.ofProgress p)) = some (FullMeta.ofProgress p)) :
    (save toVec state p ids).load fromSlice name = .ok (some (state, p)) := by
  have hblocks : (blocks 32 (ids.flatMap Vector.toList)).toFinset = p.boundary := by
    rw [blocks_flatMap (by omega), hids]
  simp only [load, save, hmeta, hblocks]
  rfl

end RawFiles

end NostrSearch.Stats
