import NostrSearch.Indexer.Planner
import NostrSearch.Lib.Run

/-!
# A unit of work, step by step

`scrape_relay_day` from one point where it waits to the next. Between two such points other tasks
run, and at each of them the backstop of `run_pass` may drop the unit. `unitStep` is one stretch of
the unit; it touches the state by `put_relay` and `put_day` alone, and writes back the copy of the
record the unit was handed when it was planned. `scrapeRelayDay_run`: what the function does when it
is left alone is a run of these steps.
-/

namespace NostrSearch.Indexer

open NostrSearch.Core NostrSearch.Lib

/-! ## Paths that look generated -/

/-- NATO phonetic alphabet. -/
def NATO : List (List Char) :=
  ["alfa", "alpha", "bravo", "charlie", "delta", "echo", "foxtrot", "golf", "hotel", "india",
    "juliett", "juliet", "kilo", "lima", "mike", "november", "oscar", "papa", "quebec", "romeo",
    "sierra", "tango", "uniform", "victor", "whiskey", "xray", "yankee", "zulu"].map String.toList

/-- What comes after so many slashes: `splitn(k + 1, '/').nth(k)`. -/
def afterSlashes : ℕ → List Char → Option (List Char)
  | 0, s => some s
  | _ + 1, [] => none
  | k + 1, c :: s => if c = '/' then afterSlashes k s else afterSlashes (k + 1) s

/-- `looks_like_generated_path`. -/
def looksLikeGeneratedPath (url : List Char) : Bool :=
  match afterSlashes 3 url with
  | none => false
  | some path =>
    let path := (path.reverse.dropWhile fun c => c = '/').reverse
    let tokens := (path.splitOnP fun c => c = '-' ∨ c = '_' ∨ c = '/').filter fun t => t ≠ []
    decide (2 ≤ tokens.length) && tokens.any fun t => decide (asciiLower t ∈ NATO)

/-! ## The records a unit writes -/

namespace RelayInfo

/-- Not a relay, until the next check is due. -/
def condemned (cfg : ScrapeConfig) (info : RelayInfo) (nowProbe : ℕ) : RelayInfo :=
  { info with
    nip11 := some false
    nip11At := nowProbe
    deadUntil := some (nowProbe + cfg.nip11RecheckSecs) }

/-- It has served its document. -/
def verified (info : RelayInfo) (nowProbe : ℕ) : RelayInfo :=
  { info with nip11 := some true, nip11At := nowProbe }

/-- After a day that is done. -/
def succeeded (info : RelayInfo) (start seen now : ℕ) : RelayInfo :=
  let info := { info with fails := 0, lastFail := 0, deadUntil := none, lastOk := now }
  if 0 < seen then { info with birthday := some (info.birthday.elim start fun b => min b start) }
  else info

/-- Whether the relay is set aside after one more failure. -/
def retires (cfg : ScrapeConfig) (info : RelayInfo) (now' : ℕ) : Bool :=
  if info.lastOk = 0 then min (cfg.deadAfterFails * 5) U32_MAX ≤ min (info.fails + 1) U32_MAX
  else cfg.deadAfterFails ≤ min (info.fails + 1) U32_MAX ∧ cfg.deadForSecs ≤ now' - info.lastOk

/-- After a day that failed. -/
def failed (cfg : ScrapeConfig) (info : RelayInfo) (now now' : ℕ) : RelayInfo :=
  let info' := { info with fails := min (info.fails + 1) U32_MAX, lastFail := now }
  if info.retires cfg now' then { info' with deadUntil := some (now' + cfg.deadForSecs) } else info'

/-- What `scrape_day` may change of the record it is handed. -/
def LearnedFrom (info info' : RelayInfo) : Prop :=
  info' = { info with
    negentropy := info'.negentropy
    cap := info'.cap
    negCap := info'.negCap }

/-- The relay is passed over by the planner, whether it is being scraped or not. -/
def refused (info : RelayInfo) (now : ℕ) : Bool :=
  info.deadUntil.any (fun t => decide (now < t)) || info.backsOff now ||
    decide (info.nip11 = some false)

end RelayInfo

theorem skips_eq (now : ℕ) (inFlight : Finset (List Char)) (url : List Char) (info : RelayInfo) :
    skips now inFlight url info = (info.refused now || decide (url ∈ inFlight)) := by
  rw [skips, RelayInfo.refused, Bool.or_right_comm]

theorem recordFailure_eq (cfg : ScrapeConfig) (info : RelayInfo) (url : List Char) (now now' : ℕ)
    (st : ScrapeState) :
    recordFailure cfg info url now now' st = st.putRelay url (info.failed cfg now now') := by
  unfold recordFailure RelayInfo.failed RelayInfo.retires
  dsimp only
  congr 1
  by_cases hok : info.lastOk = 0
  · simp only [if_pos hok, decide_eq_true_eq]
  · simp only [if_neg hok, decide_eq_true_eq]

theorem recordDone_eq (info : RelayInfo) (date url : List Char) (start seen new now : ℕ)
    (st : ScrapeState) :
    recordDone info date url start seen new now st =
      (st.putDay date url { seen := seen, new := new, doneAt := now, epoch := SYNC_EPOCH }).putRelay
        url (info.succeeded start seen now) := rfl

/-! ## The steps -/

/-- How far a unit has come. -/
inductive UnitStage
  | begun
  /-- in `probe_nip11`, with the clock read before it -/
  | probing (nowProbe : ℕ)
  /-- before `add_relay` -/
  | checked
  /-- connecting, or scraping -/
  | added
  /-- the outcome is written, and the relay is being removed from the pool -/
  | recorded
  | over
deriving DecidableEq

/-- A unit; `day.info` is its copy of the relay's record. -/
structure ScrapeUnit where
  day : RelayDay
  stage : UnitStage
deriving DecidableEq

inductive UnitAct
  | begin (nowProbe : ℕ)
  /-- the answer of `probe_nip11` -/
  | answer (probe : Option Bool)
  | add (ok : Bool)
  /-- `scrape_day` learns something of the relay -/
  | learn (negentropy : Option Bool) (cap negCap : ℕ)
  | succeed (seen new now : ℕ)
  /-- no connection, an error or the unit timeout -/
  | fail (now now' : ℕ)
  | removed
  /-- the backstop drops the unit -/
  | backstop
deriving DecidableEq

/-- `info` changes, and is written back. -/
def ScrapeUnit.put (u : ScrapeUnit) (st : ScrapeState) (info : RelayInfo) (stage : UnitStage) :
    ScrapeState × ScrapeUnit :=
  (st.putRelay u.day.url info, { day := { u.day with info := info }, stage := stage })

/-- One stretch of `scrape_relay_day`. -/
def unitStep (cfg : ScrapeConfig) (s : ScrapeState × ScrapeUnit) :
    UnitAct → Option (ScrapeState × ScrapeUnit)
  | .begin nowProbe =>
    let info := s.2.day.info
    if s.2.stage = .begun then
      if info.nip11 = none ∧ looksLikeGeneratedPath s.2.day.url = true then
        some (s.2.put s.1 (info.condemned cfg nowProbe) .over)
      else if info.nip11 = none ∨ cfg.nip11RecheckSecs < nowProbe - info.nip11At then
        some (s.1, { s.2 with stage := .probing nowProbe })
      else some (s.1, { s.2 with stage := .checked })
    else none
  | .answer probe =>
    match s.2.stage, probe with
    | .probing nowProbe, some true => some (s.2.put s.1 (s.2.day.info.verified nowProbe) .checked)
    | .probing nowProbe, some false =>
      some (s.2.put s.1 (s.2.day.info.condemned cfg nowProbe) .over)
    | .probing _, none => some (s.1, { s.2 with stage := .checked })
    | _, _ => none
  | .add ok =>
    if s.2.stage = .checked then some (s.1, { s.2 with stage := if ok then .added else .over })
    else none
  | .learn negentropy cap negCap =>
    if s.2.stage = .added then
      let info := { s.2.day.info with negentropy := negentropy, cap := cap, negCap := negCap }
      some (s.1, { s.2 with day := { s.2.day with info := info } })
    else none
  | .succeed seen new now =>
    if s.2.stage = .added then
      let d := s.2.day
      some (recordDone d.info d.date d.url d.start seen new now s.1,
        { day := { d with info := d.info.succeeded d.start seen now }, stage := .recorded })
    else none
  | .fail now now' =>
    if s.2.stage = .added then
      let d := s.2.day
      some (recordFailure cfg d.info d.url now now' s.1,
        { day := { d with info := d.info.failed cfg now now' }, stage := .recorded })
    else none
  | .removed =>
    if s.2.stage = .recorded then some (s.1, { s.2 with stage := .over }) else none
  | .backstop => if s.2.stage ≠ .over then some (s.1, { s.2 with stage := .over }) else none

/-- What a stretch can do. -/
inductive UnitMove (cfg : ScrapeConfig) (st : ScrapeState) (u : ScrapeUnit) :
    UnitAct → ScrapeState × ScrapeUnit → Prop
  | generated (nowProbe : ℕ) (hstage : u.stage = .begun) (hnip : u.day.info.nip11 = none)
      (hpath : looksLikeGeneratedPath u.day.url = true) :
      UnitMove cfg st u (.begin nowProbe) (u.put st (u.day.info.condemned cfg nowProbe) .over)
  | asks (nowProbe : ℕ) (hstage : u.stage = .begun)
      (hgen : ¬ (u.day.info.nip11 = none ∧ looksLikeGeneratedPath u.day.url = true))
      (hdue : u.day.info.nip11 = none ∨ cfg.nip11RecheckSecs < nowProbe - u.day.info.nip11At) :
      UnitMove cfg st u (.begin nowProbe) (st, { u with stage := .probing nowProbe })
  | trusts (nowProbe : ℕ) (hstage : u.stage = .begun)
      (hgen : ¬ (u.day.info.nip11 = none ∧ looksLikeGeneratedPath u.day.url = true))
      (hdue : ¬ (u.day.info.nip11 = none ∨ cfg.nip11RecheckSecs < nowProbe - u.day.info.nip11At)) :
      UnitMove cfg st u (.begin nowProbe) (st, { u with stage := .checked })
  | verified (nowProbe : ℕ) (hstage : u.stage = .probing nowProbe) :
      UnitMove cfg st u (.answer (some true)) (u.put st (u.day.info.verified nowProbe) .checked)
  | condemned (nowProbe : ℕ) (hstage : u.stage = .probing nowProbe) :
      UnitMove cfg st u (.answer (some false)) (u.put st (u.day.info.condemned cfg nowProbe) .over)
  | unknown (nowProbe : ℕ) (hstage : u.stage = .probing nowProbe) :
      UnitMove cfg st u (.answer none) (st, { u with stage := .checked })
  | added (hstage : u.stage = .checked) :
      UnitMove cfg st u (.add true) (st, { u with stage := .added })
  | turnedAway (hstage : u.stage = .checked) :
      UnitMove cfg st u (.add false) (st, { u with stage := .over })
  | learns (negentropy : Option Bool) (cap negCap : ℕ) (hstage : u.stage = .added) :
      UnitMove cfg st u (.learn negentropy cap negCap)
        (st, { u with day := { u.day with info :=
          { u.day.info with negentropy := negentropy, cap := cap, negCap := negCap } } })
  | succeeds (seen new now : ℕ) (hstage : u.stage = .added) :
      UnitMove cfg st u (.succeed seen new now)
        (recordDone u.day.info u.day.date u.day.url u.day.start seen new now st,
          { day := { u.day with info := u.day.info.succeeded u.day.start seen now }
            stage := .recorded })
  | fails (now now' : ℕ) (hstage : u.stage = .added) :
      UnitMove cfg st u (.fail now now') (u.put st (u.day.info.failed cfg now now') .recorded)
  | removed (hstage : u.stage = .recorded) :
      UnitMove cfg st u .removed (st, { u with stage := .over })
  | backstop (hstage : u.stage ≠ .over) :
      UnitMove cfg st u .backstop (st, { u with stage := .over })

theorem unitMove_of_step {cfg : ScrapeConfig} {st : ScrapeState} {u : ScrapeUnit} {a : UnitAct}
    {r : ScrapeState × ScrapeUnit} (h : unitStep cfg (st, u) a = some r) :
    UnitMove cfg st u a r := by
  cases a with
  | begin nowProbe =>
    simp only [unitStep] at h
    split at h
    case isFalse => cases h
    case isTrue hstage =>
      split at h
      case isTrue hgen =>
        cases h
        exact .generated nowProbe hstage hgen.1 hgen.2
      case isFalse hgen =>
        split at h
        case isTrue hdue =>
          cases h
          exact .asks nowProbe hstage hgen hdue
        case isFalse hdue =>
          cases h
          exact .trusts nowProbe hstage hgen hdue
  | answer probe =>
    simp only [unitStep] at h
    split at h
    · cases h
      exact .verified _ ‹_›
    · cases h
      exact .condemned _ ‹_›
    · cases h
      exact .unknown _ ‹_›
    · cases h
  | add ok =>
    simp only [unitStep] at h
    split at h
    · cases h
      cases ok with
      | true => exact .added ‹_›
      | false => exact .turnedAway ‹_›
    · cases h
  | learn negentropy cap negCap =>
    simp only [unitStep] at h
    split at h
    · cases h
      exact .learns negentropy cap negCap ‹_›
    · cases h
  | succeed seen new now =>
    simp only [unitStep] at h
    split at h
    · cases h
      exact .succeeds seen new now ‹_›
    · cases h
  | fail now now' =>
    simp only [unitStep] at h
    split at h
    · cases h
      rw [recordFailure_eq]
      exact .fails now now' ‹_›
    · cases h
  | removed =>
    simp only [unitStep] at h
    split at h
    · cases h
      exact .removed ‹_›
    · cases h
  | backstop =>
    simp only [unitStep] at h
    split at h
    · cases h
      exact .backstop ‹_›
    · cases h

/-- A unit keeps to its relay and its day. -/
theorem unitStep_key {cfg : ScrapeConfig} {st st' : ScrapeState} {u u' : ScrapeUnit} {a : UnitAct}
    (h : unitStep cfg (st, u) a = some (st', u')) :
    u'.day.url = u.day.url ∧ u'.day.date = u.day.date ∧ u'.day.start = u.day.start := by
  cases unitMove_of_step h <;> exact ⟨rfl, rfl, rfl⟩

/-- A unit writes the record of its own relay only. -/
theorem unitStep_relays_of_ne {cfg : ScrapeConfig} {st st' : ScrapeState} {u u' : ScrapeUnit}
    {a : UnitAct} (h : unitStep cfg (st, u) a = some (st', u')) {url : List Char}
    (hne : url ≠ u.day.url) : st'.relays url = st.relays url := by
  cases unitMove_of_step h with
  | generated _ _ _ _ => exact Function.update_of_ne hne ..
  | verified _ _ => exact Function.update_of_ne hne ..
  | condemned _ _ => exact Function.update_of_ne hne ..
  | succeeds _ _ _ _ => exact Function.update_of_ne hne ..
  | fails _ _ _ => exact Function.update_of_ne hne ..
  | _ => rfl

/-- Once its outcome is written, or it is over, a unit writes nothing. -/
theorem unitStep_ended {cfg : ScrapeConfig} {st st' : ScrapeState} {u u' : ScrapeUnit}
    {a : UnitAct} (h : unitStep cfg (st, u) a = some (st', u'))
    (hended : u.stage = .recorded ∨ u.stage = .over) : st' = st ∧ u'.stage = .over := by
  cases unitMove_of_step h with
  | removed hstage => exact ⟨rfl, rfl⟩
  | backstop hstage => exact ⟨rfl, rfl⟩
  | generated nowProbe hstage _ _ | asks nowProbe hstage _ _ | trusts nowProbe hstage _ _ =>
    rcases hended with heq | heq
    · rw [heq] at hstage
      cases hstage
    · rw [heq] at hstage
      cases hstage
  | _ =>
    rename_i hstage
    rcases hended with heq | heq
    · rw [heq] at hstage
      cases hstage
    · rw [heq] at hstage
      cases hstage

/-! ## What `scrape_day` leaves alone -/

section scrape_day

variable {W : Type*} {net : Client W} {sink : Sink W} {info : RelayInfo}

theorem RelayInfo.LearnedFrom.refl (info : RelayInfo) : info.LearnedFrom info := rfl

theorem RelayInfo.LearnedFrom.trans {a b c : RelayInfo} (hab : a.LearnedFrom b)
    (hbc : b.LearnedFrom c) : a.LearnedFrom c := by
  rw [LearnedFrom] at hab
  rw [hab] at hbc
  exact hbc

/-- The record where a turn of the window loop ends. -/
def negInfo (t : Turn (NegState W) (NegEnd × NegState W)) : RelayInfo :=
  match t with
  | .again s => s.day.info
  | .leave r => r.2.day.info

theorem acceptWindow_info (lo hi : ℕ) (remote : List String) (s : NegState W) :
    negInfo (acceptWindow net sink lo hi remote s) = s.day.info := by
  unfold acceptWindow
  dsimp only
  split
  case h_1 e day heq =>
    have hinfo := congrArg (fun r => r.2.info) heq
    dsimp only at hinfo
    rw [fetchChunks_info] at hinfo
    exact hinfo.symm
  case h_2 day heq =>
    have hinfo := congrArg (fun r => r.2.info) heq
    dsimp only at hinfo
    rw [fetchChunks_info] at hinfo
    exact hinfo.symm

theorem negTurn_info (floorSecs : ℕ) (s : NegState W) :
    s.day.info.LearnedFrom (negInfo (negTurn net sink floorSecs s)) := by
  unfold negTurn
  split
  case h_1 => exact RelayInfo.LearnedFrom.refl _
  case h_2 lo hi stack heq =>
    split
    case h_1 out w hsync =>
      dsimp only
      split
      · rfl
      · rw [acceptWindow_info]
        rfl
    case h_2 msg w hsync =>
      unfold giveUp
      dsimp only
      split
      · rfl
      · split
        · rfl
        · rfl

theorem reqTurn_info (start stop : ℕ) (s : ReqState W) :
    (∀ s', reqTurn net sink start stop s = .again s' → s.day.info.LearnedFrom s'.day.info) ∧
      ∀ r, reqTurn net sink start stop s = .leave r → s.day.info.LearnedFrom r.2.info := by
  unfold reqTurn
  split
  case h_1 e w hpage =>
    refine ⟨nofun, fun r hr => ?_⟩
    cases hr
    exact RelayInfo.LearnedFrom.refl _
  case h_2 page w hpage =>
    dsimp only
    split
    case h_1 =>
      refine ⟨nofun, fun r hr => ?_⟩
      cases hr
      rfl
    case h_2 oldest hmin =>
      split
      · split
        · refine ⟨fun s' hs' => ?_, nofun⟩
          cases hs'
          rfl
        · refine ⟨nofun, fun r hr => ?_⟩
          cases hr
          rfl
      · split
        · refine ⟨nofun, fun r hr => ?_⟩
          cases hr
          rfl
        · refine ⟨fun s' hs' => ?_, nofun⟩
          cases hs'
          rfl

theorem reqBranch_info {start stop turns : ℕ} {d : DayRun W}
    {r : Except ScrapeError Unit × DayRun W} (h : reqBranch net sink start stop turns d = some r) :
    d.info.LearnedFrom r.2.info := by
  unfold reqBranch at h
  split at h
  case h_1 =>
    cases h
    exact RelayInfo.LearnedFrom.refl _
  case h_2 w hrelay =>
    refine @loop_rule _ _ (reqTurn net sink start stop) (fun s => d.info.LearnedFrom s.day.info)
      (fun r => d.info.LearnedFrom r.2.info) (fun s s' hs hturn => ?_) (fun s r hs hturn => ?_)
      _ _ _ ?_ h
    · exact hs.trans ((reqTurn_info start stop s).1 s' hturn)
    · exact hs.trans ((reqTurn_info start stop s).2 r hturn)
    · exact RelayInfo.LearnedFrom.refl _

theorem negBranch_info {floorSecs start stop turns : ℕ} {d : DayRun W} {r : NegEnd × NegState W}
    (h : negBranch net sink floorSecs start stop turns d = some r) :
    d.info.LearnedFrom r.2.day.info := by
  unfold negBranch at h
  refine @loop_rule _ _ (negTurn net sink floorSecs) (fun s => d.info.LearnedFrom s.day.info)
    (fun r => d.info.LearnedFrom r.2.day.info) (fun s s' hs hturn => ?_) (fun s r hs hturn => ?_)
    _ _ _ ?_ h
  · have hone := @negTurn_info _ net sink floorSecs s
    rw [hturn] at hone
    exact hs.trans hone
  · have hone := @negTurn_info _ net sink floorSecs s
    rw [hturn] at hone
    exact hs.trans hone
  · exact RelayInfo.LearnedFrom.refl _

/-- `scrape_day` learns the cap of a relay, its largest set and whether it reconciles, and changes
nothing else of the record. -/
theorem scrapeDay_info {floorSecs start stop turns : ℕ} {d : DayRun W}
    {r : Except ScrapeError Unit × DayRun W}
    (h : scrapeDay net sink floorSecs start stop turns d = some r) :
    d.info.LearnedFrom r.2.info := by
  unfold scrapeDay at h
  split at h
  · exact reqBranch_info h
  · split at h
    case h_1 => cases h
    case h_2 s hneg =>
      cases h
      exact negBranch_info hneg
    case h_3 e s hneg =>
      cases h
      exact negBranch_info hneg
    case h_4 s hneg =>
      have hreq := reqBranch_info h
      refine (negBranch_info hneg).trans ?_
      split at hreq
      · exact hreq
      · exact hreq

end scrape_day

/-! ## The function left alone -/

section alone

variable {W : Type*} {net : Client W} {sink : Sink W} {cfg : ScrapeConfig} {env : UnitEnv W}
  {turns : ℕ} {st st' : ScrapeState} {w w' : W}

/-- Learning what `info'` has learned. -/
theorem unitStep_learn {day : RelayDay} {info' : RelayInfo} (h : day.info.LearnedFrom info') :
    unitStep cfg (st, ⟨day, .added⟩) (.learn info'.negentropy info'.cap info'.negCap) =
      some (st, ⟨{ day with info := info' }, .added⟩) := by
  rw [RelayInfo.LearnedFrom] at h
  unfold unitStep
  dsimp only
  rw [if_pos rfl, ← h]

/-- From the connection to the outcome. -/
theorem fetchDay_run {day : RelayDay}
    (hcut : ∀ info' w', env.timedOut = some (info', w') → day.info.LearnedFrom info')
    (h : fetchDay net sink cfg turns env day.url day.info day.date day.start day.stop st w =
      some (st', w')) :
    ∃ as u', run (unitStep cfg) (st, ⟨day, .added⟩) as = some (st', u') ∧ u'.stage = .recorded := by
  unfold fetchDay at h
  split at h
  case isFalse =>
    cases h
    exact ⟨[.fail env.now env.now'], _, rfl, rfl⟩
  case isTrue =>
    split at h
    case h_1 info' w₁ hout =>
      cases h
      have hlearn := @unitStep_learn cfg st day info' (hcut info' _ hout)
      refine ⟨[.learn info'.negentropy info'.cap info'.negCap, .fail env.now env.now'],
        ⟨{ day with info := info'.failed cfg env.now env.now' }, .recorded⟩, ?_, rfl⟩
      rw [run_cons, hlearn]
      rfl
    case h_2 =>
      split at h
      case h_1 => cases h
      case h_2 d hday =>
        cases h
        have hlearn := @unitStep_learn cfg st day d.info (scrapeDay_info hday)
        refine ⟨[.learn d.info.negentropy d.info.cap d.info.negCap, .succeed d.seen d.new env.now],
          ⟨{ day with info := d.info.succeeded day.start d.seen env.now }, .recorded⟩, ?_, rfl⟩
        rw [run_cons, hlearn]
        rfl
      case h_3 e d hday =>
        cases h
        have hlearn := @unitStep_learn cfg st day d.info (scrapeDay_info hday)
        refine ⟨[.learn d.info.negentropy d.info.cap d.info.negCap, .fail env.now env.now'],
          ⟨{ day with info := d.info.failed cfg env.now env.now' }, .recorded⟩, ?_, rfl⟩
        rw [run_cons, hlearn]
        rfl

/-- From `add_relay` on. -/
theorem fetchDay_run_checked {day : RelayDay}
    (hcut : ∀ info' w', env.timedOut = some (info', w') → day.info.LearnedFrom info')
    (h : (if env.added then
        fetchDay net sink cfg turns env day.url day.info day.date day.start day.stop st w
      else some (st, w)) = some (st', w')) :
    ∃ as u', run (unitStep cfg) (st, ⟨day, .checked⟩) as = some (st', u') ∧
      (u'.stage = .recorded ∨ u'.stage = .over) := by
  split at h
  case isTrue =>
    obtain ⟨as, u', hrun, hstage⟩ := fetchDay_run hcut h
    refine ⟨.add true :: as, u', ?_, Or.inl hstage⟩
    rw [run_cons]
    exact hrun
  case isFalse =>
    cases h
    exact ⟨[.add false], ⟨day, .over⟩, rfl, Or.inr rfl⟩

/-- The record `scrape_day` is handed. -/
def handedOver (cfg : ScrapeConfig) (env : UnitEnv W) (info : RelayInfo) : RelayInfo :=
  if (info.nip11 = none ∨ cfg.nip11RecheckSecs < env.nowProbe - info.nip11At) ∧
      env.probe = some true then info.verified env.nowProbe
  else info

/-- **`scrape_relay_day`, left alone, is a run of its steps.** It ends with its outcome written, or
where it returns early. -/
theorem scrapeRelayDay_run {day : RelayDay}
    (hpath : env.looksLikeGeneratedPath = looksLikeGeneratedPath day.url)
    (hcut : ∀ info' w', env.timedOut = some (info', w') →
      (handedOver cfg env day.info).LearnedFrom info')
    (h : scrapeRelayDay net sink cfg turns env day.url day.info day.date day.start day.stop st w =
      some (st', w')) :
    ∃ as u', run (unitStep cfg) (st, ⟨day, .begun⟩) as = some (st', u') ∧
      (u'.stage = .recorded ∨ u'.stage = .over) := by
  unfold scrapeRelayDay at h
  dsimp only at h
  rw [hpath] at h
  by_cases hgen : day.info.nip11 = none ∧ looksLikeGeneratedPath day.url = true
  · rw [if_pos hgen] at h
    cases h
    refine ⟨[.begin env.nowProbe],
      ⟨{ day with info := day.info.condemned cfg env.nowProbe }, .over⟩, ?_, Or.inr rfl⟩
    rw [run_cons, unitStep]
    dsimp only
    rw [if_pos rfl, if_pos hgen]
    rfl
  · rw [if_neg hgen] at h
    by_cases hdue : day.info.nip11 = none ∨ cfg.nip11RecheckSecs < env.nowProbe - day.info.nip11At
    · have hbegin : unitStep cfg (st, ⟨day, .begun⟩) (.begin env.nowProbe) =
          some (st, ⟨day, .probing env.nowProbe⟩) := by
        rw [unitStep]
        dsimp only
        rw [if_pos rfl, if_neg hgen, if_pos hdue]
      rw [if_pos hdue] at h
      cases hprobe : env.probe with
      | none =>
        have hhanded : handedOver cfg env day.info = day.info := by
          rw [handedOver, if_neg (by rw [hprobe]; exact fun hand => by cases hand.2)]
        rw [hprobe] at h
        rw [hhanded] at hcut
        obtain ⟨as, u', hrun, hstage⟩ := fetchDay_run_checked hcut h
        refine ⟨.begin env.nowProbe :: .answer none :: as, u', ?_, hstage⟩
        rw [run_cons, hbegin]
        exact hrun
      | some ok =>
        rw [hprobe] at h
        cases ok with
        | false =>
          cases h
          refine ⟨[.begin env.nowProbe, .answer (some false)],
            ⟨{ day with info := day.info.condemned cfg env.nowProbe }, .over⟩, ?_, Or.inr rfl⟩
          rw [run_cons, hbegin]
          rfl
        | true =>
          have hhanded : handedOver cfg env day.info = day.info.verified env.nowProbe := by
            rw [handedOver, if_pos ⟨hdue, hprobe⟩]
          rw [hhanded] at hcut
          obtain ⟨as, u', hrun, hstage⟩ :=
            @fetchDay_run_checked _ net sink cfg env turns _ st' w w'
              { day with info := day.info.verified env.nowProbe } hcut h
          refine ⟨.begin env.nowProbe :: .answer (some true) :: as, u', ?_, hstage⟩
          rw [run_cons, hbegin]
          exact hrun
    · have hhanded : handedOver cfg env day.info = day.info := by
        rw [handedOver, if_neg fun hand => hdue hand.1]
      rw [if_neg hdue] at h
      rw [hhanded] at hcut
      obtain ⟨as, u', hrun, hstage⟩ := fetchDay_run_checked hcut h
      refine ⟨.begin env.nowProbe :: as, u', ?_, hstage⟩
      rw [run_cons, unitStep]
      dsimp only
      rw [if_pos rfl, if_neg hgen, if_neg hdue]
      exact hrun

end alone

end NostrSearch.Indexer
