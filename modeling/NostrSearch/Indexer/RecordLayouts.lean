import NostrSearch.Indexer.Scrape
import NostrSearch.Stats.ProgressLayouts

/-!
# Records of the scraper in every layout

The records of relays and of finished days are bincode, and have gained fields at their ends:
`last_fail` and then `neg_cap`, and `epoch`. `decode_relay_info` and `decode_day_done` try the
layouts newest first. A record of an older layout ends where a newer one has its next field, so that
it is read in its own layout only, with the defaults for what it does not have.

`stored_records_decode` says so of all the records there are, with those of `ProgressLayouts`.
-/

namespace NostrSearch.Indexer

open NostrSearch.Lib NostrSearch.Stats Positional

/-! ## Relays -/

/-- The layout before `last_fail`. -/
def relayInfoV1 : Decoder RelayInfo := do
  let sources ← uint 4
  let negentropy ← option bool
  let cap ← uint 4
  let fails ← uint 4
  let lastOk ← uint 8
  let birthday ← option (uint 8)
  let nip11 ← option bool
  let nip11At ← uint 8
  let deadUntil ← option (uint 8)
  return { sources, negentropy, cap, fails, lastOk, birthday, nip11, nip11At, deadUntil
           lastFail := 0, negCap := 0 }

/-- The layout up to `last_fail`, before `neg_cap`: the same fields, and one more. -/
def relayInfoV2 : Decoder RelayInfo := do
  let o ← relayInfoV1
  let lastFail ← uint 8
  return { o with lastFail }

/-- The current layout: the same fields, and one more. -/
def relayInfo : Decoder RelayInfo := do
  let o ← relayInfoV2
  let negCap ← uint 4
  return { o with negCap }

/-- Decode a stored `RelayInfo`, accepting every previous layout. -/
def decodeRelayInfo (v : List UInt8) : Option RelayInfo :=
  match deserialize relayInfo v with
  | some info => some info
  | none =>
    match deserialize relayInfoV2 v with
    | some o => some o
    | none => deserialize relayInfoV1 v

/-- A relay that a record can hold. -/
structure RelayRecord where
  info : RelayInfo
  sources : info.sources < 2 ^ 32
  cap : info.cap < 2 ^ 32
  fails : info.fails < 2 ^ 32
  lastOk : info.lastOk < 2 ^ 64
  birthday : ∀ t ∈ info.birthday, t < 2 ^ 64
  nip11At : info.nip11At < 2 ^ 64
  deadUntil : ∀ t ∈ info.deadUntil, t < 2 ^ 64
  lastFail : info.lastFail < 2 ^ 64
  negCap : info.negCap < 2 ^ 32

namespace RelayRecord

variable (r : RelayRecord)

def bytesV1 : List UInt8 :=
  [toLE r.info.sources 4, putOption putBool r.info.negentropy, toLE r.info.cap 4,
    toLE r.info.fails 4, toLE r.info.lastOk 8, putOption (toLE · 8) r.info.birthday,
    putOption putBool r.info.nip11, toLE r.info.nip11At 8,
    putOption (toLE · 8) r.info.deadUntil].flatten

def bytesV2 : List UInt8 := r.bytesV1 ++ toLE r.info.lastFail 8

/-- What is written now. -/
def bytes : List UInt8 := r.bytesV2 ++ toLE r.info.negCap 4

theorem reads_V1 : Reads relayInfoV1 r.bytesV1 { r.info with lastFail := 0, negCap := 0 } := by
  have hsources := r.sources
  have hcap := r.cap
  have hfails := r.fails
  have hlastOk := r.lastOk
  have hnip11At := r.nip11At
  have hflag : ∀ o : Option Bool, Reads (option bool) (putOption putBool o) o :=
    fun o => reads_option fun b _ => reads_bool b
  have htime : ∀ o : Option ℕ, (∀ t ∈ o, t < 2 ^ 64) →
      Reads (option (uint 8)) (putOption (toLE · 8) o) o := by
    intro o ho
    apply reads_option
    intro t ht
    have hlt := ho t ht
    exact reads_uint (by omega)
  -- field by field, each with what its bound says
  apply (reads_uint (by omega)).bind
  apply (hflag _).bind
  apply (reads_uint (by omega)).bind
  apply (reads_uint (by omega)).bind
  apply (reads_uint (by omega)).bind
  apply (htime _ r.birthday).bind
  apply (hflag _).bind
  apply (reads_uint (by omega)).bind
  apply (htime _ r.deadUntil).bind
  exact Reads.pure _

theorem reads_V2 : Reads relayInfoV2 r.bytesV2 { r.info with negCap := 0 } := by
  have hlastFail := r.lastFail
  exact r.reads_V1.bind ((reads_uint (by omega)).last (Reads.pure _))

theorem reads : Reads relayInfo r.bytes r.info := by
  have hnegCap := r.negCap
  exact r.reads_V2.bind ((reads_uint (by omega)).last (Reads.pure r.info))

/-! Each record ends before the field that the next layout has. -/

theorem bytesV2_short : deserialize relayInfo r.bytesV2 = none :=
  deserialize_short r.reads_V2 (short_uint (by omega)).bind

theorem bytesV1_shortV2 : deserialize relayInfoV2 r.bytesV1 = none :=
  deserialize_short r.reads_V1 (short_uint (by omega)).bind

theorem bytesV1_short : deserialize relayInfo r.bytesV1 = none :=
  deserialize_bind_none r.bytesV1_shortV2

theorem decode_bytes : decodeRelayInfo r.bytes = some r.info := by
  rw [decodeRelayInfo, deserialize_reads r.reads]

theorem decode_V2 : decodeRelayInfo r.bytesV2 = some { r.info with negCap := 0 } := by
  rw [decodeRelayInfo, r.bytesV2_short, deserialize_reads r.reads_V2]

theorem decode_V1 :
    decodeRelayInfo r.bytesV1 = some { r.info with lastFail := 0, negCap := 0 } := by
  rw [decodeRelayInfo, r.bytesV1_short, r.bytesV1_shortV2]
  exact deserialize_reads r.reads_V1

end RelayRecord

/-! ## Finished days -/

/-- The pre-epoch layout. -/
def dayDoneV1 : Decoder DayDone := do
  let seen ← uint 8
  let new ← uint 8
  let doneAt ← uint 8
  return { seen, new, doneAt, epoch := 0 }

/-- The current layout: the same fields, and `epoch` behind them. -/
def dayDone : Decoder DayDone := do
  let o ← dayDoneV1
  let epoch ← uint 4
  return { o with epoch }

/-- Decode a stored `DayDone`, accepting the pre-epoch layout. -/
def decodeDayDone (v : List UInt8) : Option DayDone :=
  match deserialize dayDone v with
  | some d => some d
  | none => deserialize dayDoneV1 v

/-- A day that a record can hold. -/
structure DayRecord where
  day : DayDone
  seen : day.seen < 2 ^ 64
  new : day.new < 2 ^ 64
  doneAt : day.doneAt < 2 ^ 64
  epoch : day.epoch < 2 ^ 32

namespace DayRecord

variable (d : DayRecord)

def bytesV1 : List UInt8 := [toLE d.day.seen 8, toLE d.day.new 8, toLE d.day.doneAt 8].flatten

/-- What is written now. -/
def bytes : List UInt8 := d.bytesV1 ++ toLE d.day.epoch 4

theorem reads_V1 : Reads dayDoneV1 d.bytesV1 { d.day with epoch := 0 } := by
  have hseen := d.seen
  have hnew := d.new
  have hdoneAt := d.doneAt
  apply (reads_uint (by omega)).bind
  apply (reads_uint (by omega)).bind
  apply (reads_uint (by omega)).bind
  exact Reads.pure _

theorem reads : Reads dayDone d.bytes d.day := by
  have hepoch := d.epoch
  exact d.reads_V1.bind ((reads_uint (by omega)).last (Reads.pure d.day))

theorem bytesV1_short : deserialize dayDone d.bytesV1 = none :=
  deserialize_short d.reads_V1 (short_uint (by omega)).bind

theorem decode_bytes : decodeDayDone d.bytes = some d.day := by
  rw [decodeDayDone, deserialize_reads d.reads]

theorem decode_V1 : decodeDayDone d.bytesV1 = some { d.day with epoch := 0 } := by
  rw [decodeDayDone, d.bytesV1_short]
  exact deserialize_reads d.reads_V1

end DayRecord

/-! ## Every record -/

/-- **Stored records.** A record of a relay, of a finished day or of progress is read in the layout
it was written in and in no other, and what it does not have is at its default. -/
theorem stored_records_decode :
    (∀ r : RelayRecord,
      decodeRelayInfo r.bytes = some r.info ∧
      decodeRelayInfo r.bytesV2 = some { r.info with negCap := 0 } ∧
      decodeRelayInfo r.bytesV1 = some { r.info with lastFail := 0, negCap := 0 } ∧
      deserialize relayInfo r.bytesV2 = none ∧ deserialize relayInfo r.bytesV1 = none ∧
      deserialize relayInfoV2 r.bytesV1 = none) ∧
    (∀ d : DayRecord,
      decodeDayDone d.bytes = some d.day ∧
      decodeDayDone d.bytesV1 = some { d.day with epoch := 0 } ∧
      deserialize dayDone d.bytesV1 = none) ∧
    ∀ (p : ProgressRecord) (name : String) (state : List UInt8)
      (toVec : FullMeta → List UInt8) (fromSlice : List UInt8 → Option FullMeta),
      (RawFiles.old state p.bytesV1).load fromSlice name = .ok (some (state, p.progress)) ∧
      (RawFiles.old state p.bytesV0).load fromSlice name =
        .ok (some (state, { p.progress with rebuild := {} })) ∧
      deserialize progressV1 p.bytesV0 = none ∧
      (fromSlice (toVec (FullMeta.ofProgress p.progress)) = some (FullMeta.ofProgress p.progress) →
        (RawFiles.save toVec state p.progress p.ids).load fromSlice name =
          .ok (some (state, p.progress))) := by
  refine ⟨fun r => ?_, fun d => ?_, fun p name state toVec fromSlice => ?_⟩
  · exact ⟨r.decode_bytes, r.decode_V2, r.decode_V1, r.bytesV2_short, r.bytesV1_short,
      r.bytesV1_shortV2⟩
  · exact ⟨d.decode_bytes, d.decode_V1, d.bytesV1_short⟩
  · exact ⟨RawFiles.load_old fromSlice name state p.decodeLegacy_V1,
      RawFiles.load_old fromSlice name state p.decodeLegacy_V0, p.bytesV0_short,
      RawFiles.load_save fromSlice name state p.toFinset_ids⟩

private def relayOnRecord : RelayRecord where
  info :=
    { sources := 533200, negentropy := some true, cap := 500, fails := 3, lastOk := 1786212005
      birthday := some 1652832000, nip11 := some true, nip11At := 1786000000
      deadUntil := some 1786301334, lastFail := 1786300000, negCap := 10000 }
  sources := by decide
  cap := by decide
  fails := by decide
  lastOk := by decide
  birthday := by decide
  nip11At := by decide
  deadUntil := by decide
  lastFail := by decide
  negCap := by decide

private def dayOnRecord : DayRecord where
  day := { seen := 10, new := 3, doneAt := 1786301334, epoch := SYNC_EPOCH }
  seen := by decide
  new := by decide
  doneAt := by decide
  epoch := by decide

private def progressOnRecord : ProgressRecord where
  progress :=
    { epoch := 3, watermark := 1700000000, boundary := {Vector.replicate 32 7}, events := 12345
      backfilled := true, lastRefreshWall := 0, counters := {}, lastRefreshMicros := 0
      rebuild :=
        { completed := ["older.jsonl"], file := "combined.jsonl.zst", lastId := "abc123" } }
  ids := [Vector.replicate 32 7]
  toFinset_ids := rfl
  length_ids := by decide
  epoch := by decide
  watermark := by decide
  events := by decide
  lastRefreshWall := by decide
  observed := by decide
  consumed := by decide
  filtered := by decide
  refreshCount := by decide
  lastRefreshMicros := by decide
  completed := by decide
  names := by decide
  file := by decide
  lastId := by decide

/-- The metadata of `progressOnRecord`. -/
private def metaJson : List UInt8 :=
  ("\x7b\"epoch\":3,\"watermark\":1700000000,\"events\":12345,\"backfilled\":true," ++
    "\"last_refresh_wall\":0,\"counters\":\x7b\"observed\":0,\"consumed\":0,\"filtered\":0," ++
    "\"refresh_count\":0,\"last_refresh_micros\":0\x7d,\"rebuild\":\x7b\"completed\":" ++
    "[\"older.jsonl\"],\"file\":\"combined.jsonl.zst\",\"last_id\":\"abc123\"\x7d\x7d").toUTF8.data.toList

/-- One record of each kind, in every layout it could have been written in. -/
theorem records_of_each_layout :
    decodeRelayInfo relayOnRecord.bytes = some relayOnRecord.info ∧
    decodeRelayInfo relayOnRecord.bytesV1 =
      some { relayOnRecord.info with lastFail := 0, negCap := 0 } ∧
    decodeDayDone dayOnRecord.bytesV1 = some { dayOnRecord.day with epoch := 0 } ∧
    (RawFiles.save (fun _ => metaJson) [] progressOnRecord.progress progressOnRecord.ids).load
      (fun bytes => if bytes = metaJson then
        some (FullMeta.ofProgress progressOnRecord.progress) else none) "activity" =
        .ok (some ([], progressOnRecord.progress)) := by
  obtain ⟨hrelays, hdays, hprogress⟩ := stored_records_decode
  obtain ⟨hnew, -, hold, -⟩ := hrelays relayOnRecord
  obtain ⟨-, -, -, hsplit⟩ := hprogress progressOnRecord "activity" [] (fun _ => metaJson)
    fun bytes => if bytes = metaJson then some (FullMeta.ofProgress progressOnRecord.progress)
      else none
  exact ⟨hnew, hold, (hdays dayOnRecord).2.1, hsplit (if_pos rfl)⟩

end NostrSearch.Indexer
