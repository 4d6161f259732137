import NostrSearch.Core.Event
import NostrSearch.Core.Text
import NostrSearch.Lib.Loop

/-!
# Scraping one day of one relay

`scrape_day` and `scrape_relay_day`. A unit of work talks to a relay and to a sink while everything
else goes on, so both are functions on a state of the world `W` which they are free to change as
they like: an answer may depend on all that happened before it. `Client` is the relay as
`nostr_sdk` shows it, `Sink` the trait of that name.

`DayRun.passed` and `NegState.accepted` are history: what was handed to `process`, and the windows
whose set was taken at its word. No branch reads them.
-/

namespace NostrSearch.Indexer

open NostrSearch.Core NostrSearch.Lib

/-! ## Relays and days on record -/

/-- Largest `u32`, where the counters of a record stop. -/
def U32_MAX : ℕ := 2 ^ 32 - 1

/-- What is known of a relay. -/
structure RelayInfo where
  /-- Distinct authors who advertise it. -/
  sources : ℕ := 0
  /-- Whether reconciliation works: `none` until it is tried. -/
  negentropy : Option Bool := none
  /-- Largest number of results of one REQ. -/
  cap : ℕ := 0
  fails : ℕ := 0
  lastOk : ℕ := 0
  birthday : Option ℕ := none
  nip11 : Option Bool := none
  nip11At : ℕ := 0
  deadUntil : Option ℕ := none
  lastFail : ℕ := 0
  /-- Largest id set one reconciliation has returned. -/
  negCap : ℕ := 0
deriving DecidableEq

/-- A finished relay-day. -/
structure DayDone where
  seen : ℕ
  new : ℕ
  doneAt : ℕ
  epoch : ℕ
deriving DecidableEq

/-- The epoch finished days are recorded under. -/
def SYNC_EPOCH : ℕ := 2

/-- The state database: relay-days under `day_key`, relays under their URL. -/
structure ScrapeState where
  days : List Char → Option DayDone
  relays : List Char → Option RelayInfo

/-- `day_key`. -/
def dayKey (date url : List Char) : List Char := ['d', '|'] ++ date ++ ['|'] ++ url

/-- `day_done`. -/
def ScrapeState.dayDone (st : ScrapeState) (date url : List Char) : Bool :=
  match st.days (dayKey date url) with
  | some d => SYNC_EPOCH ≤ d.epoch
  | none => false

/-- `put_day`. -/
def ScrapeState.putDay (st : ScrapeState) (date url : List Char) (done : DayDone) : ScrapeState :=
  { st with days := Function.update st.days (dayKey date url) (some done) }

/-- `put_relay`. -/
def ScrapeState.putRelay (st : ScrapeState) (url : List Char) (info : RelayInfo) : ScrapeState :=
  { st with relays := Function.update st.relays url (some info) }

@[simp] theorem ScrapeState.putRelay_days (st : ScrapeState) (url : List Char) (info : RelayInfo) :
    (st.putRelay url info).days = st.days := rfl

@[simp] theorem ScrapeState.putDay_relays (st : ScrapeState) (date url : List Char)
    (done : DayDone) : (st.putDay date url done).relays = st.relays := rfl

@[simp] theorem ScrapeState.putRelay_dayDone (st : ScrapeState) (url : List Char)
    (info : RelayInfo) (date url' : List Char) :
    (st.putRelay url info).dayDone date url' = st.dayDone date url' := rfl

theorem ScrapeState.putDay_dayDone (st : ScrapeState) (date url : List Char) (done : DayDone)
    (date' url' : List Char) :
    (st.putDay date url done).dayDone date' url' =
      if dayKey date' url' = dayKey date url then decide (SYNC_EPOCH ≤ done.epoch)
      else st.dayDone date' url' := by
  unfold dayDone putDay
  by_cases hkey : dayKey date' url' = dayKey date url
  · rw [if_pos hkey, hkey]
    simp only [Function.update_self]
  · rw [if_neg hkey]
    simp only [Function.update_of_ne hkey]

/-! ## One REQ -/

/-- A REQ filter. -/
structure Filter where
  ids : Option (List String) := none
  since : Option ℕ := none
  til : Option ℕ := none
  limit : Option ℕ := none
deriving DecidableEq

/-- The events a filter asks for; `limit` says how many of them. -/
def Filter.wants (f : Filter) (ev : NostrEvent) : Bool :=
  f.ids.all (fun ids => decide (ev.id ∈ ids)) && f.since.all (fun s => decide (s ≤ ev.createdAt)) &&
    f.til.all fun t => decide (ev.createdAt ≤ t)

/-- `RelayStatus`, with the states no branch names as one. -/
inductive RelayStatus
  | disconnected
  | terminated
  | banned
  | alive
deriving DecidableEq

/-- What `notifications().recv()` yields while a subscription is open. -/
inductive Notification
  | event (subscription : String) (ev : NostrEvent)
  | endOfStoredEvents (subscription : String)
  | closed (subscription : String) (message : List Char)
  | other
  | relayStatus (status : RelayStatus)
  | shutdown
  | lagged
  | channelClosed
deriving DecidableEq

inductive ReqError
  | closed (message : List Char)
  | timeout
  | disconnected
  | relay (message : List Char)
deriving DecidableEq

/-- `ReqError::is_rate_limit`. -/
def ReqError.isRateLimit : ReqError → Bool
  | .closed m =>
    let m := asciiLower m
    "rate-limited".toList.isPrefixOf m || containsText m "rate limit".toList ||
      containsText m "budget".toList || containsText m "too many".toList ||
      containsText m "slow down".toList
  | _ => false

/-- The events of subscription `id`, up to the end of the stored ones. A stream that ends before
that is one the timeout cuts off. -/
def recvLoop (id : String) (events : List NostrEvent) :
    List Notification → Except ReqError (List NostrEvent)
  | [] => .error .timeout
  | .event sub ev :: rest => recvLoop id (if sub = id then events ++ [ev] else events) rest
  | .endOfStoredEvents sub :: rest => if sub = id then .ok events else recvLoop id events rest
  | .closed sub m :: rest => if sub = id then .error (.closed m) else recvLoop id events rest
  | .relayStatus .alive :: rest | .other :: rest => recvLoop id events rest
  | .relayStatus _ :: _ | .shutdown :: _ | .lagged :: _ | .channelClosed :: _ =>
    .error .disconnected

/-- The answer of a reconciliation: the ids the relay holds, each once. -/
structure Reconciliation where
  remote : List String
  nodup : remote.Nodup

/-- A relay behind `nostr_sdk`. -/
structure Client (W : Type*) where
  /-- `client.relay(url)`. -/
  relay : W → Except (List Char) Unit × W
  /-- `sync_with_items`, for a window and the local items in it. -/
  sync : ℕ → ℕ → List (String × ℕ) → W → Except (List Char) Reconciliation × W
  /-- Sending a REQ: a fresh subscription and what is received while it is open. -/
  req : Filter → W → Except (List Char) (String × List Notification) × W
  /-- `str::to_lowercase`, of an error message. -/
  toLowercase : List Char → List Char

/-- The trait `Sink`. -/
structure Sink (W : Type*) where
  missing : List String → W → List String × W
  localItems : ℕ → ℕ → W → List (String × ℕ) × W
  process : List NostrEvent → W → ℕ × W

variable {W : Type*}

/-- `req_once`. -/
def reqOnce (net : Client W) (f : Filter) (w : W) : Except ReqError (List NostrEvent) × W :=
  match net.req f w with
  | (.error e, w) => (.error (.relay e), w)
  | (.ok (id, notes), w) => (recvLoop id [] notes, w)

def RATE_LIMIT_RETRIES : ℕ := 12

/-- The loop of `req_window`, with so many retries left. -/
def reqRetry (net : Client W) (f : Filter) : ℕ → W → Except ReqError (List NostrEvent) × W
  | 0, w => reqOnce net f w
  | left + 1, w =>
    match reqOnce net f w with
    | (.error e, w) => if e.isRateLimit then reqRetry net f left w else (.error e, w)
    | (.ok events, w) => (.ok events, w)

/-- `req_window`. -/
def reqWindow (net : Client W) (f : Filter) (w : W) : Except ReqError (List NostrEvent) × W :=
  reqRetry net f RATE_LIMIT_RETRIES w

/-- What `req_window` returns is the answer to one of its requests. -/
theorem reqWindow_ok {net : Client W} {f : Filter} {P : List NostrEvent → Prop}
    (hnet : ∀ w events w', reqOnce net f w = (.ok events, w') → P events)
    {w w' : W} {events : List NostrEvent} (h : reqWindow net f w = (.ok events, w')) :
    P events := by
  unfold reqWindow at h
  generalize RATE_LIMIT_RETRIES = left at h
  induction left generalizing w with
  | zero => exact hnet w events w' h
  | succ left ih =>
    rw [reqRetry] at h
    split at h
    case h_1 w₁ e h₁ =>
      split at h
      case isTrue => exact ih h
      case isFalse => cases h
    case h_2 w₁ events₁ h₁ =>
      cases h
      exact hnet w events w' h₁

/-! ## A relay-day -/

/-- How a relay-day fails. -/
inductive ScrapeError
  | relay (message : List Char)
  | req (e : ReqError)
  | timedOut
  | notConnected
deriving DecidableEq

/-- A relay-day under way. -/
structure DayRun (W : Type*) where
  world : W
  info : RelayInfo
  seen : ℕ := 0
  new : ℕ := 0
  passed : List NostrEvent := []

/-- `new += sink.process(events)`. -/
def DayRun.process (sink : Sink W) (events : List NostrEvent) (d : DayRun W) : DayRun W :=
  { d with
    world := (sink.process events d.world).2
    new := d.new + (sink.process events d.world).1
    passed := d.passed ++ events }

/-- A REQ for the ids of one chunk. -/
def fetchChunk (net : Client W) (sink : Sink W) (ids : List String) (d : DayRun W) :
    Except ScrapeError Unit × DayRun W :=
  match net.relay d.world with
  | (.error e, w) => (.error (.relay e), { d with world := w })
  | (.ok (), w) =>
    match reqWindow net { ids := some ids } w with
    | (.error e, w) => (.error (.req e), { d with world := w })
    | (.ok events, w) => (.ok (), DayRun.process sink events { d with world := w })

/-- The chunks one after the other, up to the first that fails. -/
def fetchChunks (net : Client W) (sink : Sink W) :
    List (List String) → DayRun W → Except ScrapeError Unit × DayRun W
  | [], d => (.ok (), d)
  | ids :: rest, d =>
    match fetchChunk net sink ids d with
    | (.error e, d) => (.error e, d)
    | (.ok (), d) => fetchChunks net sink rest d

/-- Fetching does not change what is known of the relay. -/
theorem fetchChunk_info (net : Client W) (sink : Sink W) (ids : List String) (d : DayRun W) :
    (fetchChunk net sink ids d).2.info = d.info := by
  rw [fetchChunk]
  split
  case h_1 => rfl
  case h_2 => split <;> rfl

theorem fetchChunks_info (net : Client W) (sink : Sink W) (cs : List (List String))
    (d : DayRun W) : (fetchChunks net sink cs d).2.info = d.info := by
  induction cs generalizing d with
  | nil => rfl
  | cons ids cs ih =>
    have hone := fetchChunk_info net sink ids d
    rw [fetchChunks]
    split
    case h_1 e d' h =>
      rw [h] at hone
      exact hone
    case h_2 d' h =>
      rw [h] at hone
      rw [ih, hone]

/-! ### Negentropy -/

def NEG_WINDOW_SECS : ℕ := 3600

def NEG_CAP_FLOOR : ℕ := 5000

/-- Ids asked for in one REQ. -/
def GAP_CHUNK : ℕ := 500

/-- The first so many chunks of a list. -/
def chunksOf {α : Type*} (size : ℕ) : ℕ → List α → List (List α)
  | 0, _ => []
  | _ + 1, [] => []
  | left + 1, x :: xs => (x :: xs.take (size - 1)) :: chunksOf size left (xs.drop (size - 1))

/-- `slice::chunks`: there are no more of them than elements. -/
def chunks {α : Type*} (size : ℕ) (xs : List α) : List (List α) := chunksOf size xs.length xs

/-- The hour-aligned windows from `s` on. -/
def hourWindows (s stop : ℕ) : List (ℕ × ℕ) :=
  if s < stop then
    let e := min (s + NEG_WINDOW_SECS) stop
    (s, e) :: hourWindows e stop
  else []
termination_by stop - s
decreasing_by
  unfold NEG_WINDOW_SECS
  omega

/-- A window whose set was accepted: what the relay presented in it, and what of that the sink
reported missing. -/
structure Accepted where
  lo : ℕ
  hi : ℕ
  remote : List String
  missing : List String
deriving DecidableEq

/-- The window loop. The head of `stack` is the window that is popped next. -/
structure NegState (W : Type*) where
  stack : List (ℕ × ℕ)
  day : DayRun W
  syncedAny : Bool := false
  accepted : List Accepted := []

/-- How the window loop ends. -/
inductive NegEnd
  | finished
  | abandoned
  | failed (e : ScrapeError)
deriving DecidableEq

/-- What the record of a relay learns from a set of `n` ids. -/
def RelayInfo.learn (info : RelayInfo) (n : ℕ) : RelayInfo :=
  { info with negentropy := some true, negCap := max info.negCap (n % 2 ^ 32) }

/-- Whether a set of `n` ids is taken for a truncated one, in a window that can still be split. -/
def RelayInfo.splits (info : RelayInfo) (floorSecs lo hi n : ℕ) : Bool :=
  max info.negCap NEG_CAP_FLOOR ≤ n ∧ floorSecs ≤ (hi - lo) / 2

/-- A window's set is taken at its word: count it, and fetch what the sink is missing. -/
def acceptWindow (net : Client W) (sink : Sink W) (lo hi : ℕ) (remote : List String)
    (s : NegState W) : Turn (NegState W) (NegEnd × NegState W) :=
  let missing := (sink.missing remote s.day.world).1
  let w := (sink.missing remote s.day.world).2
  let day := { s.day with world := w, seen := s.day.seen + remote.length }
  match fetchChunks net sink (chunks GAP_CHUNK missing) day with
  | (.error e, day) => .leave (.failed e, { s with day := day })
  | (.ok (), day) =>
    .again
      { s with
        day := day
        syncedAny := true
        accepted := { lo := lo, hi := hi, remote := remote, missing := missing } :: s.accepted }

/-- A window that could not be reconciled. -/
def giveUp (net : Client W) (msg : List Char) (s : NegState W) : NegEnd × NegState W :=
  let lower := net.toLowercase msg
  if containsText lower "negentropy".toList || containsText lower "not supported".toList then
    (.abandoned, { s with day := { s.day with info := { s.day.info with negentropy := some false } } })
  else if s.syncedAny then (.failed (.relay msg), s)
  else (.abandoned, s)

/-- The reconciliation of one window, from `client.relay` to the relay's answer. -/
def syncWindow (net : Client W) (sink : Sink W) (lo hi : ℕ) (w : W) :
    Except (List Char) Reconciliation × W :=
  let (items, w) := sink.localItems lo (hi - 1) w
  match net.relay w with
  | (.error e, w) => (.error e, w)
  | (.ok (), w) => net.sync lo (hi - 1) items w

/-- One turn of the window loop. -/
def negTurn (net : Client W) (sink : Sink W) (floorSecs : ℕ) (s : NegState W) :
    Turn (NegState W) (NegEnd × NegState W) :=
  match s.stack with
  | [] => .leave (.finished, s)
  | (lo, hi) :: stack =>
    match syncWindow net sink lo hi s.day.world with
    | (.ok out, w) =>
      let n := out.remote.length
      let info := s.day.info.learn n
      let day := { s.day with world := w, info := info }
      if info.splits floorSecs lo hi n then
        let mid := lo + (hi - lo) / 2
        .again { s with stack := (mid, hi) :: (lo, mid) :: stack, day := day }
      else acceptWindow net sink lo hi out.remote { s with stack := stack, day := day }
    | (.error msg, w) =>
      .leave (giveUp net msg { s with stack := stack, day := { s.day with world := w } })

/-- The window loop starts from the hours of the day, newest first. -/
def negStart (start stop : ℕ) (d : DayRun W) : NegState W :=
  { stack := (hourWindows start stop).reverse, day := d }

/-- The negentropy branch of `scrape_day`. -/
def negBranch (net : Client W) (sink : Sink W) (floorSecs start stop turns : ℕ) (d : DayRun W) :
    Option (NegEnd × NegState W) :=
  loop (negTurn net sink floorSecs) turns (negStart start stop d)

/-! ### Plain REQs -/

/-- The REQ loop: the end of the next page, and the ids on the pages so far. -/
structure ReqState (W : Type*) where
  til : ℕ
  haveIds : List String := []
  day : DayRun W

/-- `page.into_iter().filter(|e| have.insert(e.id))`: the new events of a page and the ids after
it. -/
def insertFresh (haveIds : List String) : List NostrEvent → List NostrEvent × List String
  | [] => ([], haveIds)
  | e :: page =>
    if e.id ∈ haveIds then insertFresh haveIds page
    else
      let (fresh, ids) := insertFresh (e.id :: haveIds) page
      (e :: fresh, ids)

/-- The filter of a page. -/
def pageFilter (start til : ℕ) : Filter :=
  { since := some start, til := some til, limit := some 10000 }

/-- A page, asked for once more when it is empty where there were events before. -/
def reqPage (net : Client W) (start stop til : ℕ) (w : W) :
    Except ReqError (List NostrEvent) × W :=
  match reqWindow net (pageFilter start til) w with
  | (.ok [], w) =>
    if til + 1 < stop then reqWindow net (pageFilter start til) w else (.ok [], w)
  | r => r

/-- One turn of the REQ loop. -/
def reqTurn (net : Client W) (sink : Sink W) (start stop : ℕ) (s : ReqState W) :
    Turn (ReqState W) (Except ScrapeError Unit × DayRun W) :=
  match reqPage net start stop s.til s.day.world with
  | (.error e, w) => .leave (.error (.req e), { s.day with world := w })
  | (.ok page, w) =>
    let info := { s.day.info with cap := max s.day.info.cap (page.length % 2 ^ 32) }
    let day := { s.day with world := w, info := info }
    match (page.map NostrEvent.createdAt).min? with
    | none => .leave (.ok (), day)
    | some oldest =>
      let (fresh, ids) := insertFresh s.haveIds page
      if fresh.isEmpty then
        if oldest = s.til ∧ start < s.til then .again { til := s.til - 1, haveIds := ids, day := day }
        else .leave (.ok (), day)
      else
        let day := DayRun.process sink fresh { day with seen := day.seen + fresh.length }
        if oldest ≤ start then .leave (.ok (), day)
        else .again { til := oldest, haveIds := ids, day := day }

/-- The REQ branch of `scrape_day`. -/
def reqBranch (net : Client W) (sink : Sink W) (start stop turns : ℕ) (d : DayRun W) :
    Option (Except ScrapeError Unit × DayRun W) :=
  match net.relay d.world with
  | (.error e, w) => some (.error (.relay e), { d with world := w })
  | (.ok (), w) =>
    loop (reqTurn net sink start stop) turns { til := stop - 1, day := { d with world := w } }

/-- `scrape_day`, unless a loop of it takes more than `turns` turns. -/
def scrapeDay (net : Client W) (sink : Sink W) (floorSecs start stop turns : ℕ) (d : DayRun W) :
    Option (Except ScrapeError Unit × DayRun W) :=
  if d.info.negentropy = some false then reqBranch net sink start stop turns d
  else
    match negBranch net sink floorSecs start stop turns d with
    | none => none
    | some (.finished, s) => some (.ok (), s.day)
    | some (.failed e, s) => some (.error e, s.day)
    | some (.abandoned, s) =>
      reqBranch net sink start stop turns
        (if s.syncedAny then { s.day with seen := 0, new := 0 } else s.day)

/-! ### The record of a relay-day -/

structure ScrapeConfig where
  minDate : ℕ
  floorSecs : ℕ
  deadAfterFails : ℕ
  deadForSecs : ℕ
  nip11RecheckSecs : ℕ
  /-- Relays scraped at once. -/
  concurrency : ℕ := 50
  pinnedRelays : List (List Char) := []
deriving DecidableEq

/-- `Ok((seen, new))`: the relay is alive and its day is done. -/
def recordDone (info : RelayInfo) (date url : List Char) (start seen new now : ℕ)
    (st : ScrapeState) : ScrapeState :=
  let info := { info with fails := 0, lastFail := 0, deadUntil := none, lastOk := now }
  let st := st.putDay date url { seen := seen, new := new, doneAt := now, epoch := SYNC_EPOCH }
  let info :=
    if 0 < seen then { info with birthday := some (info.birthday.elim start fun b => min b start) }
    else info
  st.putRelay url info

/-- A relay-day that is recorded is done. -/
theorem dayDone_recordDone (info : RelayInfo) (date url : List Char) (start seen new now : ℕ)
    (st : ScrapeState) : (recordDone info date url start seen new now st).dayDone date url = true := by
  rw [recordDone, ScrapeState.putRelay_dayDone, ScrapeState.putDay_dayDone, if_pos rfl]
  rfl

/-- `Err(_)`: one more failure, and retirement after enough of them. -/
def recordFailure (cfg : ScrapeConfig) (info : RelayInfo) (url : List Char) (now now' : ℕ)
    (st : ScrapeState) : ScrapeState :=
  let info := { info with fails := min (info.fails + 1) U32_MAX, lastFail := now }
  let retire :=
    if info.lastOk = 0 then min (cfg.deadAfterFails * 5) U32_MAX ≤ info.fails
    else cfg.deadAfterFails ≤ info.fails ∧ cfg.deadForSecs ≤ now' - info.lastOk
  st.putRelay url (if retire then { info with deadUntil := some (now' + cfg.deadForSecs) } else info)

/-- What a unit meets on its way: the look of the path, the NIP-11 probe, the pool, the connection,
a timeout (with the record and the world it is cut off in), and the readings of the clock. -/
structure UnitEnv (W : Type*) where
  looksLikeGeneratedPath : Bool
  probe : Option Bool
  added : Bool
  connected : Bool
  timedOut : Option (RelayInfo × W)
  nowProbe : ℕ
  now : ℕ
  now' : ℕ

/-- The fetching of `scrape_relay_day` and the record of its outcome. -/
def fetchDay (net : Client W) (sink : Sink W) (cfg : ScrapeConfig) (turns : ℕ) (env : UnitEnv W)
    (url : List Char) (info : RelayInfo) (date : List Char) (start stop : ℕ) (st : ScrapeState)
    (w : W) : Option (ScrapeState × W) :=
  if env.connected then
    match env.timedOut with
    | some (info, w) => some (recordFailure cfg info url env.now env.now' st, w)
    | none =>
      match scrapeDay net sink cfg.floorSecs start stop turns { world := w, info := info } with
      | none => none
      | some (.ok (), d) =>
        some (recordDone d.info date url start d.seen d.new env.now st, d.world)
      | some (.error _, d) => some (recordFailure cfg d.info url env.now env.now' st, d.world)
  else some (recordFailure cfg info url env.now env.now' st, w)

/-- `scrape_relay_day`. -/
def scrapeRelayDay (net : Client W) (sink : Sink W) (cfg : ScrapeConfig) (turns : ℕ)
    (env : UnitEnv W) (url : List Char) (info : RelayInfo) (date : List Char) (start stop : ℕ)
    (st : ScrapeState) (w : W) : Option (ScrapeState × W) :=
  let condemned (info : RelayInfo) : RelayInfo :=
    { info with
      nip11 := some false
      nip11At := env.nowProbe
      deadUntil := some (env.nowProbe + cfg.nip11RecheckSecs) }
  if info.nip11 = none ∧ env.looksLikeGeneratedPath = true then
    some (st.putRelay url (condemned info), w)
  else
    let due := info.nip11 = none ∨ cfg.nip11RecheckSecs < env.nowProbe - info.nip11At
    match (if due then env.probe else none) with
    | some false => some (st.putRelay url (condemned info), w)
    | some true =>
      let info := { info with nip11 := some true, nip11At := env.nowProbe }
      let st := st.putRelay url info
      if env.added then fetchDay net sink cfg turns env url info date start stop st w
      else some (st, w)
    | none =>
      if env.added then fetchDay net sink cfg turns env url info date start stop st w
      else some (st, w)

end NostrSearch.Indexer
