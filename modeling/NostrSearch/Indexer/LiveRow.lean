import NostrSearch.Indexer.NegWindows

/-!
# What a scrape reports of itself

While `scrape_day` works on a day it keeps a row for the status page up to date: the hour it is at,
the windows it has done of those that are planned, what it has found. `negMarks` and `reqMarks` are
the calls of `live_update` that a turn of either loop makes, in their order; a turn that is cut off
has made the first of them.

`bar_full` is about what the row says at any moment. While windows are reconciled it has fewer of
them done than planned until the day is through; splitting a window raises the number planned before
the next one is begun. With plain requests there is no such number, and it says one.
-/

namespace NostrSearch.Indexer

open NostrSearch.Core NostrSearch.Lib

variable {W : Type*}

/-! ## The row -/

inductive UnitPhase
  | connect
  | negentropy
  | req
deriving DecidableEq

structure UnitProgress where
  relay : List Char
  date : List Char
  phase : UnitPhase
  windowsDone : ℕ
  windowsTotal : ℕ
  windowStart : ℕ
  seen : ℕ
  new : ℕ
  startedAt : ℕ
  updatedAt : ℕ
deriving DecidableEq

/-- The changes that `scrape_day` makes to the row. -/
inductive LiveUpdate
  /-- the windows of the day are planned -/
  | planned (windows : ℕ)
  | window (start : ℕ)
  | split
  /-- a window or a page is done -/
  | done (seen new : ℕ)
  /-- plain requests begin -/
  | paging
deriving DecidableEq

namespace UnitProgress

/-- The row that `live_start` inserts. -/
def start (relay date : List Char) (now : ℕ) : UnitProgress where
  relay := relay
  date := date
  phase := .connect
  windowsDone := 0
  windowsTotal := 0
  windowStart := 0
  seen := 0
  new := 0
  startedAt := now
  updatedAt := now

/-- A change. -/
def apply (p : UnitProgress) : LiveUpdate → UnitProgress
  | .planned windows => { p with phase := .negentropy, windowsTotal := windows % 2 ^ 32 }
  | .window start => { p with windowStart := start }
  | .split => { p with windowsTotal := (p.windowsTotal + 1) % 2 ^ 32 }
  | .done seen new =>
    { p with windowsDone := (p.windowsDone + 1) % 2 ^ 32, seen := seen, new := new }
  | .paging => { p with phase := .req, windowsDone := 0, windowsTotal := 1 }

/-- `live_update`, where there is a row. -/
def update (p : UnitProgress) (u : LiveUpdate × ℕ) : UnitProgress :=
  { p.apply u.1 with updatedAt := u.2 }

/-- The row after some updates. -/
def replay (p : UnitProgress) (log : List (LiveUpdate × ℕ)) : UnitProgress := log.foldl update p

theorem apply_updatedAt (p : UnitProgress) (u : LiveUpdate) (t : ℕ) :
    { p with updatedAt := t }.apply u = { p.apply u with updatedAt := t } := by
  cases u <;> rfl

/-- But for the time of the last update, the row shows what the changes make of it. -/
theorem replay_eq (p : UnitProgress) (log : List (LiveUpdate × ℕ)) :
    ∃ t, p.replay log = { (log.map Prod.fst).foldl apply p with updatedAt := t } := by
  induction log using List.reverseRecOn with
  | nil => exact ⟨p.updatedAt, rfl⟩
  | append_singleton log u ih =>
    obtain ⟨t, ht⟩ := ih
    refine ⟨u.2, ?_⟩
    have hsnoc : p.replay (log ++ [u]) = (p.replay log).update u :=
      List.foldl_append
    rw [hsnoc, ht, update, apply_updatedAt, List.map_append, List.foldl_append]
    rfl

/-- A row keeps to its relay and its day. -/
theorem key_replay (p : UnitProgress) (log : List (LiveUpdate × ℕ)) :
    (p.replay log).relay = p.relay ∧ (p.replay log).date = p.date := by
  induction log generalizing p with
  | nil => exact ⟨rfl, rfl⟩
  | cons u log ih =>
    obtain ⟨hrelay, hdate⟩ := ih (p.update u)
    have hkey : (p.update u).relay = p.relay ∧ (p.update u).date = p.date := by
      obtain ⟨u, t⟩ := u
      cases u <;> exact ⟨rfl, rfl⟩
    exact ⟨hrelay.trans hkey.1, hdate.trans hkey.2⟩

end UnitProgress

/-! ## The updates of a scrape -/

section marks

variable (net : Client W) (sink : Sink W)

/-- The updates of a turn of the window loop. -/
def negMarks (floorSecs : ℕ) (s : NegState W) : List LiveUpdate :=
  match s.stack with
  | [] => []
  | (lo, hi) :: stack =>
    .window lo ::
      match syncWindow net sink lo hi s.day.world with
      | (.ok out, w) =>
        let n := out.remote.length
        let info := s.day.info.learn n
        let day := { s.day with world := w, info := info }
        if info.splits floorSecs lo hi n then [.split]
        else
          match acceptWindow net sink lo hi out.remote { s with stack := stack, day := day } with
          | .again s' => [.done s'.day.seen s'.day.new]
          | .leave _ => []
      | (.error _, _) => []

/-- The updates of a turn of the REQ loop. -/
def reqMarks (start stop : ℕ) (s : ReqState W) : List LiveUpdate :=
  .window s.til ::
    match reqPage net start stop s.til s.day.world with
    | (.error _, _) => []
    | (.ok page, w) =>
      match (page.map NostrEvent.createdAt).min? with
      | none => []
      | some _ =>
        let fresh := (insertFresh s.haveIds page).1
        if fresh.isEmpty then []
        else
          let day := DayRun.process sink fresh
            { s.day with world := w, seen := s.day.seen + fresh.length }
          [.done day.seen day.new]

/-- `reqBranch`, with its updates. -/
def reqBranchLive (start stop turns : ℕ) (d : DayRun W) :
    List LiveUpdate × Option (Except ScrapeError Unit × DayRun W) :=
  match net.relay d.world with
  | (.error e, w) => ([.paging], some (.error (.relay e), { d with world := w }))
  | (.ok (), w) =>
    let r := watch (reqMarks net sink start stop) (reqTurn net sink start stop) turns
      { til := stop - 1, day := { d with world := w } }
    (.paging :: r.1, r.2)

/-- `scrapeDay`, with its updates: as far as they go where a loop takes more than `turns` turns. -/
def scrapeDayLive (floorSecs start stop turns : ℕ) (d : DayRun W) :
    List LiveUpdate × Option (Except ScrapeError Unit × DayRun W) :=
  if d.info.negentropy = some false then reqBranchLive net sink start stop turns d
  else
    let neg := negStart start stop d
    let r := watch (negMarks net sink floorSecs) (negTurn net sink floorSecs) turns neg
    let log := .planned neg.stack.length :: r.1
    match r.2 with
    | none => (log, none)
    | some (.finished, s) => (log, some (.ok (), s.day))
    | some (.failed e, s) => (log, some (.error e, s.day))
    | some (.abandoned, s) =>
      let req := reqBranchLive net sink start stop turns
        (if s.syncedAny then { s.day with seen := 0, new := 0 } else s.day)
      (log ++ req.1, req.2)

end marks

variable {net : Client W} {sink : Sink W} {floorSecs start stop : ℕ}

theorem reqBranchLive_snd (turns : ℕ) (d : DayRun W) :
    (reqBranchLive net sink start stop turns d).2 = reqBranch net sink start stop turns d := by
  unfold reqBranchLive reqBranch
  rcases net.relay d.world with ⟨e | ⟨⟩, w⟩
  · rfl
  · exact watch_snd _ _

/-- The updates are beside the scrape: it is `scrape_day` that is watched. -/
theorem scrapeDayLive_snd (floorSecs turns : ℕ) (d : DayRun W) :
    (scrapeDayLive net sink floorSecs start stop turns d).2 =
      scrapeDay net sink floorSecs start stop turns d := by
  unfold scrapeDayLive scrapeDay
  split
  case isTrue => exact reqBranchLive_snd turns d
  case isFalse =>
    rw [negBranch]
    dsimp only
    rw [← @watch_snd _ _ _ _ (negMarks net sink floorSecs)]
    split <;> simp only [*]
    exact reqBranchLive_snd _ _

/-! ## Turns -/

/-- What a turn that goes round again reports. -/
theorem negMarks_again {s s' : NegState W} (h : negTurn net sink floorSecs s = .again s') :
    ∃ lo hi rest, s.stack = (lo, hi) :: rest ∧
      (negMarks net sink floorSecs s = [.window lo, .split] ∧
          s'.stack.length = rest.length + 2 ∧ s'.accepted.length = s.accepted.length ∧
          s'.day.seen = s.day.seen ∧ s'.day.new = s.day.new ∨
        negMarks net sink floorSecs s = [.window lo, .done s'.day.seen s'.day.new] ∧
          s'.stack.length = rest.length ∧ s'.accepted.length = s.accepted.length + 1) := by
  unfold negTurn at h
  unfold negMarks
  cases hstack : s.stack with
  | nil =>
    rw [hstack] at h
    cases h
  | cons w rest =>
    obtain ⟨lo, hi⟩ := w
    rw [hstack] at h
    refine ⟨lo, hi, rest, rfl, ?_⟩
    dsimp only at h ⊢
    rcases hsync : syncWindow net sink lo hi s.day.world with ⟨msg | out, w⟩
    · rw [hsync] at h
      cases h
    · rw [hsync] at h
      dsimp only at h ⊢
      split at h
      case isTrue hsplit =>
        rw [if_pos hsplit]
        cases h
        exact Or.inl ⟨rfl, rfl, rfl, rfl, rfl⟩
      case isFalse hsplit =>
        rw [if_neg hsplit, h]
        right
        refine ⟨rfl, ?_⟩
        unfold acceptWindow at h
        dsimp only at h
        split at h
        · cases h
        · cases h
          exact ⟨rfl, rfl⟩

/-- What the last turn reports. -/
theorem negMarks_leave {s : NegState W} {r : NegEnd × NegState W}
    (h : negTurn net sink floorSecs s = .leave r) :
    s.stack = [] ∧ negMarks net sink floorSecs s = [] ∧ r = (.finished, s) ∨
      ∃ lo hi rest, s.stack = (lo, hi) :: rest ∧ negMarks net sink floorSecs s = [.window lo] ∧
        r.1 ≠ .finished ∧
        (r.1 = .abandoned → r.2.day.seen = s.day.seen ∧ r.2.day.new = s.day.new) := by
  unfold negTurn at h
  unfold negMarks
  cases hstack : s.stack with
  | nil =>
    rw [hstack] at h
    cases h
    exact Or.inl ⟨rfl, rfl, rfl⟩
  | cons w rest =>
    obtain ⟨lo, hi⟩ := w
    rw [hstack] at h
    refine Or.inr ⟨lo, hi, rest, rfl, ?_⟩
    dsimp only at h ⊢
    rcases hsync : syncWindow net sink lo hi s.day.world with ⟨msg | out, w⟩
    · rw [hsync] at h
      cases h
      refine ⟨rfl, ?_⟩
      unfold giveUp
      dsimp only
      split
      case isTrue =>
        refine ⟨?_, fun _ => ⟨rfl, rfl⟩⟩
        rintro ⟨⟩
      case isFalse =>
        split
        case isTrue =>
          refine ⟨?_, ?_⟩
          · rintro ⟨⟩
          · rintro ⟨⟩
        case isFalse =>
          refine ⟨?_, fun _ => ⟨rfl, rfl⟩⟩
          rintro ⟨⟩
    · rw [hsync] at h
      dsimp only at h ⊢
      split at h
      case isTrue => cases h
      case isFalse hsplit =>
        rw [if_neg hsplit, h]
        obtain ⟨⟨e, he⟩, -⟩ := acceptWindow_leave h
        refine ⟨rfl, ?_, ?_⟩
        · rw [he]
          rintro ⟨⟩
        · rw [he]
          rintro ⟨⟩

/-- What a turn of the REQ loop reports: a page with new events on it, and nothing otherwise. -/
theorem reqMarks_turn (s : ReqState W) :
    (∃ seen new, reqMarks net sink start stop s = [.window s.til, .done seen new] ∧
        (∀ s', reqTurn net sink start stop s = .again s' →
          s'.day.seen = seen ∧ s'.day.new = new) ∧
        ∀ r, reqTurn net sink start stop s = .leave r → r.2.seen = seen ∧ r.2.new = new) ∨
      reqMarks net sink start stop s = [.window s.til] ∧
        (∀ s', reqTurn net sink start stop s = .again s' →
          s'.day.seen = s.day.seen ∧ s'.day.new = s.day.new) ∧
        ∀ r, reqTurn net sink start stop s = .leave r →
          r.2.seen = s.day.seen ∧ r.2.new = s.day.new := by
  unfold reqMarks reqTurn
  rcases reqPage net start stop s.til s.day.world with ⟨e | page, w⟩
  · right
    refine ⟨rfl, ?_, ?_⟩
    · rintro s' ⟨⟩
    · rintro r ⟨⟩
      exact ⟨rfl, rfl⟩
  · dsimp only
    cases (page.map NostrEvent.createdAt).min? with
    | none =>
      right
      refine ⟨rfl, ?_, ?_⟩
      · rintro s' ⟨⟩
      · rintro r ⟨⟩
        exact ⟨rfl, rfl⟩
    | some oldest =>
      dsimp only
      by_cases hfresh : (insertFresh s.haveIds page).1.isEmpty = true
      · right
        rw [if_pos hfresh, if_pos hfresh]
        refine ⟨rfl, ?_⟩
        split
        · refine ⟨?_, ?_⟩
          · rintro s' ⟨⟩
            exact ⟨rfl, rfl⟩
          · rintro r ⟨⟩
        · refine ⟨?_, ?_⟩
          · rintro s' ⟨⟩
          · rintro r ⟨⟩
            exact ⟨rfl, rfl⟩
      · left
        rw [if_neg hfresh, if_neg hfresh]
        refine ⟨_, _, rfl, ?_⟩
        split
        · refine ⟨?_, ?_⟩
          · rintro s' ⟨⟩
          · rintro r ⟨⟩
            exact ⟨rfl, rfl⟩
        · refine ⟨?_, ?_⟩
          · rintro s' ⟨⟩
            exact ⟨rfl, rfl⟩
          · rintro r ⟨⟩

/-! ## Windows done, windows planned -/

/-- A window is still to be done. -/
def Behind (p : UnitProgress) : Prop := p.phase = .negentropy ∧ p.windowsDone < p.windowsTotal

/-- The row has the figures of the day. -/
def Figures (p : UnitProgress) (d : DayRun W) : Prop := p.seen = d.seen ∧ p.new = d.new

/-- Between two turns of the window loop. -/
structure NegShown (start stop : ℕ) (s : NegState W) (p : UnitProgress) : Prop where
  tiled : Tiled start stop s
  phase : p.phase = .negentropy
  done : p.windowsDone = s.accepted.length
  total : p.windowsTotal = s.accepted.length + s.stack.length
  figures : Figures p s.day

/-- Where the window loop is left. -/
def NegTold (r : NegEnd × NegState W) (p : UnitProgress) : Prop :=
  match r.1 with
  | .finished =>
    p.phase = .negentropy ∧ p.windowsDone = p.windowsTotal ∧ Figures p r.2.day
  | .failed _ => Behind p
  | .abandoned =>
    Behind p ∧ Figures p r.2.day

theorem Tiled.length_le {s : NegState W} (h : Tiled start stop s) :
    start + (s.accepted.length + s.stack.length) ≤ stop := by
  obtain ⟨mid, hleft, hright⟩ := h
  have hl := hleft.add_length_le
  have hr := hright.add_length_le
  rw [List.length_reverse] at hl
  rw [List.length_map] at hr
  omega

theorem negShown_start (hday : start < stop) (hlen : stop - start < 2 ^ 32) (w : W)
    (info : RelayInfo) (relay date : List Char) (now : ℕ) :
    let s : NegState W := negStart start stop { world := w, info := info }
    NegShown start stop s
      ((UnitProgress.start relay date now).apply (.planned s.stack.length)) := by
  intro s
  have htiled : Tiled start stop s := tiled_start hday.le _
  have hle := htiled.length_le
  exact
    { tiled := htiled
      phase := rfl
      done := rfl
      total := by
        show s.stack.length % 2 ^ 32 = 0 + s.stack.length
        rw [Nat.mod_eq_of_lt (by omega), Nat.zero_add]
      figures := ⟨rfl, rfl⟩ }

/-- A proper beginning of a short list. -/
theorem proper_prefix {α : Type*} {a : α} {tail pre : List α} (h : pre <+: a :: tail)
    (hne : pre ≠ a :: tail) (htail : tail.length ≤ 1) : pre = [] ∨ pre = [a] := by
  rcases List.prefix_cons_iff.mp h with rfl | ⟨t, rfl, ht⟩
  · exact Or.inl rfl
  · right
    have hlt : t.length ≠ tail.length := fun heq => hne (by rw [ht.eq_of_length heq])
    have hle := ht.length_le
    rw [List.eq_nil_of_length_eq_zero (show t.length = 0 by omega)]

namespace NegShown

variable {s s' : NegState W} {p : UnitProgress}

/-- While something of its report is to come, a turn has its window in hand. -/
theorem behind (h : NegShown start stop s p) {pre : List LiveUpdate}
    (hpre : pre <+: negMarks net sink floorSecs s) (hne : pre ≠ negMarks net sink floorSecs s) :
    Behind (pre.foldl UnitProgress.apply p) := by
  have hbehind : ∀ {lo hi : ℕ} {rest : List (ℕ × ℕ)} {tail : List LiveUpdate},
      s.stack = (lo, hi) :: rest → negMarks net sink floorSecs s = .window lo :: tail →
        tail.length ≤ 1 → Behind (pre.foldl UnitProgress.apply p) := by
    intro lo hi rest tail hstack hmarks htail
    have hp : Behind p := by
      refine ⟨h.phase, ?_⟩
      rw [h.done, h.total, hstack, List.length_cons]
      omega
    rw [hmarks] at hpre hne
    rcases proper_prefix hpre hne htail with rfl | rfl
    · exact hp
    · exact hp
  cases hturn : negTurn net sink floorSecs s with
  | again s' =>
    obtain ⟨lo, hi, rest, hstack, ⟨hmarks, -⟩ | ⟨hmarks, -⟩⟩ := negMarks_again hturn
    · exact hbehind hstack hmarks le_rfl
    · exact hbehind hstack hmarks le_rfl
  | leave r =>
    rcases negMarks_leave hturn with ⟨-, hmarks, -⟩ | ⟨lo, hi, rest, hstack, hmarks, -⟩
    · rw [hmarks] at hpre hne
      exact absurd (List.prefix_nil.mp hpre) hne
    · exact hbehind hstack hmarks (Nat.zero_le 1)

theorem again (h : NegShown start stop s p) (hfloor : 0 < floorSecs)
    (hlen : stop - start < 2 ^ 32) (hturn : negTurn net sink floorSecs s = .again s') :
    NegShown start stop s' ((negMarks net sink floorSecs s).foldl UnitProgress.apply p) := by
  have htiled := (tiled_again hfloor h.tiled hturn).1
  have hle := htiled.length_le
  obtain ⟨lo, hi, rest, hstack, hcase⟩ := negMarks_again hturn
  have htotal := h.total
  rw [hstack, List.length_cons] at htotal
  rcases hcase with ⟨hmarks, hleft, hacc, hseen, hnew⟩ | ⟨hmarks, hleft, hacc⟩
  · rw [hmarks]
    refine ⟨htiled, h.phase, ?_, ?_, ?_⟩
    · rw [hacc]
      exact h.done
    · show (p.windowsTotal + 1) % 2 ^ 32 = _
      rw [Nat.mod_eq_of_lt (by omega)]
      omega
    · rw [Figures, hseen, hnew]
      exact h.figures
  · rw [hmarks]
    refine ⟨htiled, h.phase, ?_, ?_, ⟨rfl, rfl⟩⟩
    · show (p.windowsDone + 1) % 2 ^ 32 = _
      rw [h.done, Nat.mod_eq_of_lt (by omega), hacc]
    · show p.windowsTotal = _
      omega

theorem leave (h : NegShown start stop s p) {r : NegEnd × NegState W}
    (hturn : negTurn net sink floorSecs s = .leave r) :
    NegTold r ((negMarks net sink floorSecs s).foldl UnitProgress.apply p) := by
  rcases negMarks_leave hturn with
    ⟨hstack, hmarks, rfl⟩ | ⟨lo, hi, rest, hstack, hmarks, hend, hday⟩
  · rw [hmarks]
    refine ⟨h.phase, ?_, h.figures⟩
    rw [List.foldl_nil, h.done, h.total, hstack]
    rfl
  · -- the window that could not be reconciled
    have hbehind : Behind (([.window lo] : List LiveUpdate).foldl UnitProgress.apply p) := by
      refine ⟨h.phase, ?_⟩
      show p.windowsDone < p.windowsTotal
      rw [h.done, h.total, hstack, List.length_cons]
      omega
    rw [hmarks, NegTold]
    cases hr : r.1 with
    | finished => exact absurd hr hend
    | failed e => exact hbehind
    | abandoned =>
      obtain ⟨hseen, hnew⟩ := hday hr
      refine ⟨hbehind, ?_⟩
      rw [Figures, hseen, hnew]
      exact h.figures

end NegShown

/-- The window loop, watched. -/
theorem negMarks_watched (hfloor : 0 < floorSecs) (hlen : stop - start < 2 ^ 32) (turns : ℕ)
    {s : NegState W} {p : UnitProgress} (hs : NegShown start stop s p) :
    let r := watch (negMarks net sink floorSecs) (negTurn net sink floorSecs) turns s
    (∀ pre, pre <+: r.1 → pre ≠ r.1 → Behind (pre.foldl UnitProgress.apply p)) ∧
      (∀ out, r.2 = some out → NegTold out (r.1.foldl UnitProgress.apply p)) ∧
      (r.2 = none → ∃ s' : NegState W, NegShown start stop s' (r.1.foldl UnitProgress.apply p)) :=
  watch_rule (fun _ _ h _ hpre hne => h.behind hpre hne)
    (fun _ _ _ h hturn => h.again hfloor hlen hturn) (fun _ _ _ h hturn => h.leave hturn) turns hs

/-! ## Plain requests -/

/-- The row has the figures of the day, or there are none yet. -/
def Told (p : UnitProgress) (d : DayRun W) : Prop := Figures p d ∨ d.seen = 0 ∧ d.new = 0

/-- The figures of a day that has found as much. -/
theorem Told.congr {p : UnitProgress} {d d' : DayRun W} (h : Told p d)
    (hday : d'.seen = d.seen ∧ d'.new = d.new) : Told p d' := by
  unfold Told Figures at *
  rw [hday.1, hday.2]
  exact h

/-- The row says that plain requests are made. -/
def Paging (p : UnitProgress) : Prop := p.phase = .req

/-- Between two pages. -/
def ReqShown (s : ReqState W) (p : UnitProgress) : Prop := Paging p ∧ Told p s.day

/-- Where the REQ loop is left. -/
def ReqTold (r : Except ScrapeError Unit × DayRun W) (p : UnitProgress) : Prop :=
  Paging p ∧ Told p r.2

section req

variable {s s' : ReqState W} {p : UnitProgress}

theorem paging_reqMarks (hphase : Paging p) {pre : List LiveUpdate}
    (hpre : pre <+: reqMarks net sink start stop s) : Paging (pre.foldl UnitProgress.apply p) := by
  have hwindow : ∀ {tail : List LiveUpdate}, tail.length ≤ 1 →
      reqMarks net sink start stop s = .window s.til :: tail →
      Paging ((LiveUpdate.window s.til :: tail).foldl UnitProgress.apply p) →
      Paging (pre.foldl UnitProgress.apply p) := by
    intro tail hlen hmarks hwhole
    rw [hmarks] at hpre
    by_cases heq : pre = .window s.til :: tail
    · rw [heq]
      exact hwhole
    · rcases proper_prefix hpre heq hlen with rfl | rfl
      · exact hphase
      · exact hphase
  rcases @reqMarks_turn W net sink start stop s with ⟨seen, new, hmarks, -⟩ | ⟨hmarks, -⟩
  · exact hwindow le_rfl hmarks hphase
  · exact hwindow zero_le_one hmarks hphase

/-- After a page with new events the row has the figures; otherwise they stay. -/
theorem told_reqMarks (htold : Told p s.day) :
    (∀ s', reqTurn net sink start stop s = .again s' →
        Told ((reqMarks net sink start stop s).foldl UnitProgress.apply p) s'.day) ∧
      ∀ out, reqTurn net sink start stop s = .leave out →
        Told ((reqMarks net sink start stop s).foldl UnitProgress.apply p) out.2 := by
  rcases @reqMarks_turn W net sink start stop s with
    ⟨seen, new, hmarks, hagain, hleave⟩ | ⟨hmarks, hagain, hleave⟩
  · rw [hmarks]
    refine ⟨fun s' hs' => Or.inl ?_, fun out hout => Or.inl ?_⟩
    · exact ⟨(hagain s' hs').1.symm, (hagain s' hs').2.symm⟩
    · exact ⟨(hleave out hout).1.symm, (hleave out hout).2.symm⟩
  · rw [hmarks]
    have hp : Told (([.window s.til] : List LiveUpdate).foldl UnitProgress.apply p) s.day := htold
    exact ⟨fun s' hs' => hp.congr (hagain s' hs'), fun out hout => hp.congr (hleave out hout)⟩

/-- The REQ loop, watched. -/
theorem reqMarks_watched (turns : ℕ) (hs : ReqShown s p) :
    let r := watch (reqMarks net sink start stop) (reqTurn net sink start stop) turns s
    (∀ pre, pre <+: r.1 → pre ≠ r.1 → Paging (pre.foldl UnitProgress.apply p)) ∧
      (∀ out, r.2 = some out → ReqTold out (r.1.foldl UnitProgress.apply p)) ∧
      (r.2 = none → ∃ s' : ReqState W, ReqShown s' (r.1.foldl UnitProgress.apply p)) :=
  watch_rule (fun _ _ h _ hpre _ => paging_reqMarks h.1 hpre)
    (fun _ s' _ h hs' => ⟨paging_reqMarks h.1 (List.prefix_refl _), (told_reqMarks h.2).1 s' hs'⟩)
    (fun _ out _ h hout =>
      ⟨paging_reqMarks h.1 (List.prefix_refl _), (told_reqMarks h.2).2 out hout⟩)
    turns hs

/-- The row says so from the first update of the plain requests on. -/
theorem paging_watched (turns : ℕ) (hs : ReqShown s p) {pre : List LiveUpdate}
    (hpre : pre <+:
      (watch (reqMarks net sink start stop) (reqTurn net sink start stop) turns s).1) :
    Paging (pre.foldl UnitProgress.apply p) := by
  obtain ⟨hproper, hpost, hrest⟩ := @reqMarks_watched W net sink start stop s p turns hs
  by_cases heq :
    pre = (watch (reqMarks net sink start stop) (reqTurn net sink start stop) turns s).1
  · rw [heq]
    cases hout : (watch (reqMarks net sink start stop) (reqTurn net sink start stop) turns s).2 with
    | some out => exact (hpost out hout).1
    | none => exact (hrest hout).elim fun _ h => h.1
  · exact hproper pre hpre heq

end req

/-- The plain requests of a day, from their first update on. -/
theorem reqBranchLive_shown (turns : ℕ) {d : DayRun W} {p : UnitProgress} (htold : Told p d) :
    let r := reqBranchLive net sink start stop turns d
    (∀ pre, pre <+: r.1 → pre ≠ [] → Paging (pre.foldl UnitProgress.apply p)) ∧
      ∀ out, r.2 = some out → Told (r.1.foldl UnitProgress.apply p) out.2 := by
  intro r
  have hpaging : Told (p.apply .paging) d := htold
  have hstart : ∀ {log pre : List LiveUpdate}, pre <+: .paging :: log → pre ≠ [] →
      (∀ pre', pre' <+: log → Paging (pre'.foldl UnitProgress.apply (p.apply .paging))) →
      Paging (pre.foldl UnitProgress.apply p) := by
    intro log pre hpre hne hlog
    rcases List.prefix_cons_iff.mp hpre with rfl | ⟨pre', rfl, hpre'⟩
    · exact absurd rfl hne
    · exact hlog pre' hpre'
  have hr : r = reqBranchLive net sink start stop turns d := rfl
  unfold reqBranchLive at hr
  rcases hrelay : net.relay d.world with ⟨e | ⟨⟩, w⟩
  · rw [hrelay] at hr
    rw [hr]
    refine ⟨fun pre hpre hne => hstart hpre hne fun pre' hpre' => ?_, fun out hout => ?_⟩
    · rw [List.prefix_nil.mp hpre']
      exact rfl
    · cases hout
      exact hpaging
  · rw [hrelay] at hr
    rw [hr]
    have hs : ReqShown { til := stop - 1, day := { d with world := w } } (p.apply .paging) :=
      ⟨rfl, hpaging⟩
    exact ⟨fun pre hpre hne => hstart hpre hne fun pre' hpre' => paging_watched turns hs hpre',
      fun out hout => (reqMarks_watched turns hs).2.1 out hout |>.2⟩

theorem reqBranchLive_ne_nil (turns : ℕ) (d : DayRun W) :
    (reqBranchLive net sink start stop turns d).1 ≠ [] := by
  unfold reqBranchLive
  rcases net.relay d.world with ⟨e | ⟨⟩, w⟩
  · exact List.cons_ne_nil _ _
  · exact List.cons_ne_nil _ _

theorem Paging.not_negentropy {p : UnitProgress} (h : Paging p) : p.phase ≠ .negentropy := by
  rw [h]
  rintro ⟨⟩

/-! ## The whole scrape -/

/-- All windows are done, at the end of a scrape that ends well if it ends. -/
def Through (r : List LiveUpdate × Option (Except ScrapeError Unit × DayRun W))
    (pre : List LiveUpdate) (p : UnitProgress) : Prop :=
  pre = r.1 ∧ p.windowsDone = p.windowsTotal ∧ ∀ out, r.2 = some out → out.1 = .ok ()

/-- What the row says at any moment of a scrape, and at the end of one that ends well. -/
structure Shown (r : List LiveUpdate × Option (Except ScrapeError Unit × DayRun W))
    (p : UnitProgress) : Prop where
  windows : ∀ pre, pre <+: r.1 → (pre.foldl UnitProgress.apply p).phase = .negentropy →
    Behind (pre.foldl UnitProgress.apply p) ∨ Through r pre (pre.foldl UnitProgress.apply p)
  ok : ∀ d, r.2 = some (.ok (), d) → Told (r.1.foldl UnitProgress.apply p) d ∧
    ¬ Behind (r.1.foldl UnitProgress.apply p)

theorem shown_reqBranch (turns : ℕ) {d : DayRun W} {p : UnitProgress} (htold : Told p d)
    (hphase : p.phase = .connect) : Shown (reqBranchLive net sink start stop turns d) p where
  windows pre hpre hneg := by
    by_cases hnil : pre = []
    · rw [hnil, List.foldl_nil, hphase] at hneg
      cases hneg
    · exact absurd hneg ((reqBranchLive_shown turns htold).1 pre hpre hnil).not_negentropy
  ok d' hout := by
    obtain ⟨hpaging, hpost⟩ := @reqBranchLive_shown W net sink start stop turns d p htold
    refine ⟨hpost _ hout, fun hbehind => ?_⟩
    exact (hpaging _ (List.prefix_refl _) (reqBranchLive_ne_nil turns d)).not_negentropy hbehind.1

/-- Until the windows are planned the row says that the relay is being connected. -/
theorem windows_planned {r : List LiveUpdate × Option (Except ScrapeError Unit × DayRun W)}
    {n : ℕ} {log : List LiveUpdate} {p q : UnitProgress} (hlog : r.1 = .planned n :: log)
    (hphase : p.phase = .connect) (hq : p.apply (.planned n) = q)
    (hall : ∀ pre, pre <+: log → (pre.foldl UnitProgress.apply q).phase = .negentropy →
      Behind (pre.foldl UnitProgress.apply q) ∨
        Through r (.planned n :: pre) (pre.foldl UnitProgress.apply q)) :
    ∀ pre, pre <+: r.1 → (pre.foldl UnitProgress.apply p).phase = .negentropy →
      Behind (pre.foldl UnitProgress.apply p) ∨
        Through r pre (pre.foldl UnitProgress.apply p) := by
  intro pre hpre hneg
  rw [hlog] at hpre
  rcases List.prefix_cons_iff.mp hpre with rfl | ⟨pre', rfl, hpre'⟩
  · rw [List.foldl_nil, hphase] at hneg
    cases hneg
  · rw [List.foldl_cons, hq] at hneg ⊢
    exact hall pre' hpre' hneg

/-- The window loop, and the plain requests where it is given up. -/
theorem shown_negentropy (hfloor : 0 < floorSecs) (hlen : stop - start < 2 ^ 32) (turns : ℕ)
    {d : DayRun W} (hasked : d.info.negentropy ≠ some false) {p q : UnitProgress}
    (hphase : p.phase = .connect)
    (hq : p.apply (.planned (negStart start stop d).stack.length) = q)
    (hs : NegShown start stop (negStart start stop d) q) :
    Shown (scrapeDayLive net sink floorSecs start stop turns d) p := by
  have hwatched := @negMarks_watched W net sink floorSecs start stop hfloor hlen turns _ _ hs
  unfold scrapeDayLive
  rw [if_neg hasked]
  dsimp only at hwatched ⊢
  generalize watch (negMarks net sink floorSecs) (negTurn net sink floorSecs) turns
    (negStart start stop d) = w at hwatched ⊢
  obtain ⟨marks, res⟩ := w
  obtain ⟨hproper, hpost, hrest⟩ := hwatched
  cases res with
  | none =>
    refine ⟨windows_planned rfl hphase hq fun pre hpre hneg => ?_, fun d' hout => ?_⟩
    · by_cases heq : pre = marks
      · obtain ⟨s', hs'⟩ := hrest rfl
        rw [heq]
        have hle : s'.accepted.length ≤ s'.accepted.length + s'.stack.length :=
          Nat.le_add_right _ _
        rw [← hs'.total, ← hs'.done] at hle
        rcases hle.lt_or_eq with hlt | hdone
        · exact Or.inl ⟨hs'.phase, hlt⟩
        · refine Or.inr ⟨rfl, hdone, ?_⟩
          rintro out ⟨⟩
      · exact Or.inl (hproper pre hpre heq)
    · cases hout
  | some out =>
    have htold := hpost out rfl
    obtain ⟨e, s'⟩ := out
    cases e with
    | finished =>
      obtain ⟨hneg, hdone, hfigures⟩ := htold
      refine ⟨windows_planned rfl hphase hq fun pre hpre _ => ?_, fun d' hout => ?_⟩
      · by_cases heq : pre = marks
        · rw [heq]
          refine Or.inr ⟨rfl, hdone, ?_⟩
          rintro out ⟨⟩
          rfl
        · exact Or.inl (hproper pre hpre heq)
      · cases hout
        rw [List.foldl_cons, hq]
        exact ⟨Or.inl hfigures, fun hbehind => absurd hdone hbehind.2.ne⟩
    | failed e =>
      refine ⟨windows_planned rfl hphase hq fun pre hpre _ => ?_, fun d' hout => ?_⟩
      · by_cases heq : pre = marks
        · rw [heq]
          exact Or.inl htold
        · exact Or.inl (hproper pre hpre heq)
      · cases hout
    | abandoned =>
      obtain ⟨hbehind, hfigures⟩ := htold
      -- what was found with windows is forgotten
      have hstart : Told (marks.foldl UnitProgress.apply q)
          (if s'.syncedAny then { s'.day with seen := 0, new := 0 } else s'.day) := by
        cases s'.syncedAny with
        | true => exact Or.inr ⟨rfl, rfl⟩
        | false => exact Or.inl hfigures
      obtain ⟨hpaging, htells⟩ :=
        @reqBranchLive_shown W net sink start stop turns _ _ hstart
      dsimp only
      refine ⟨windows_planned rfl hphase hq fun pre hpre hneg => ?_, fun d' hout => ?_⟩
      · obtain ⟨tail, htail⟩ := hpre
        rcases List.append_eq_append_iff.mp htail with ⟨left, hmarks, -⟩ | ⟨pre', rfl, hreq⟩
        · by_cases heq : pre = marks
          · rw [heq]
            exact Or.inl hbehind
          · exact Or.inl (hproper pre ⟨left, hmarks.symm⟩ heq)
        · by_cases hnil : pre' = []
          · rw [hnil, List.append_nil]
            exact Or.inl hbehind
          · rw [List.foldl_append] at hneg
            exact absurd hneg (hpaging pre' ⟨tail, hreq.symm⟩ hnil).not_negentropy
      · rw [List.cons_append, List.foldl_cons, hq, List.foldl_append]
        refine ⟨htells _ hout, fun hfull => ?_⟩
        exact (hpaging _ (List.prefix_refl _) (reqBranchLive_ne_nil turns _)).not_negentropy hfull.1

theorem shown_scrapeDay (hfloor : 0 < floorSecs) (hday : start < stop)
    (hlen : stop - start < 2 ^ 32) (turns : ℕ) (w : W) (info : RelayInfo)
    (relay date : List Char) (since : ℕ) :
    Shown (scrapeDayLive net sink floorSecs start stop turns { world := w, info := info })
      (UnitProgress.start relay date since) := by
  by_cases hasked : info.negentropy = some false
  · rw [scrapeDayLive, if_pos hasked]
    exact shown_reqBranch turns (Or.inr ⟨rfl, rfl⟩) rfl
  · exact shown_negentropy hfloor hlen turns hasked rfl rfl
      (negShown_start hday hlen w info relay date since)

/-- **The bar of a day.** At any moment of a scrape, also one that is cut off later, the row has no
more windows done than planned; it has as many exactly when the day is through. Where the day ends
well the row has its figures, unless nothing was found in the end. -/
theorem bar_full (net : Client W) (sink : Sink W) (hfloor : 0 < floorSecs) (hday : start < stop)
    (hlen : stop - start < 2 ^ 32) (turns : ℕ) (w : W) (info : RelayInfo)
    (relay date : List Char) (since : ℕ) (log : List (LiveUpdate × ℕ))
    (hlog : log.map Prod.fst <+:
      (scrapeDayLive net sink floorSecs start stop turns { world := w, info := info }).1) :
    let marks := (scrapeDayLive net sink floorSecs start stop turns { world := w, info := info }).1
    let result := scrapeDay net sink floorSecs start stop turns { world := w, info := info }
    let p := (UnitProgress.start relay date since).replay log
    (p.phase = .negentropy → p.windowsDone ≤ p.windowsTotal ∧
      (p.windowsDone = p.windowsTotal →
        log.map Prod.fst = marks ∧ ∀ out, result = some out → out.1 = .ok ())) ∧
    (log.map Prod.fst = marks → ∀ d, result = some (.ok (), d) →
      (p.phase = .negentropy → p.windowsDone = p.windowsTotal) ∧
      (p.seen = d.seen ∧ p.new = d.new ∨ d.seen = 0 ∧ d.new = 0)) := by
  intro marks result p
  have hshown := @shown_scrapeDay W net sink floorSecs start stop hfloor hday hlen turns w info
    relay date since
  have hresult : (scrapeDayLive net sink floorSecs start stop turns
      { world := w, info := info }).2 = result := scrapeDayLive_snd floorSecs turns _
  obtain ⟨t, ht⟩ := UnitProgress.replay_eq (UnitProgress.start relay date since) log
  have hp : p = { (log.map Prod.fst).foldl UnitProgress.apply
      (UnitProgress.start relay date since) with updatedAt := t } := ht
  rw [hp]
  have hwindows : ((log.map Prod.fst).foldl UnitProgress.apply
        (UnitProgress.start relay date since)).phase = .negentropy →
      Behind _ ∨ Through _ _ _ := hshown.windows _ hlog
  refine ⟨fun hneg => ?_, fun hend d hd => ?_⟩
  · rcases hwindows hneg with hbehind | ⟨hall, hdone, hok⟩
    · exact ⟨hbehind.2.le, fun heq => absurd heq hbehind.2.ne⟩
    · refine ⟨hdone.le, fun _ => ⟨hall, fun out hout => hok out ?_⟩⟩
      rw [hresult]
      exact hout
  · obtain ⟨htold, hnot⟩ := hshown.ok d (hresult.trans hd)
    rw [hend] at hwindows ⊢
    refine ⟨fun hneg => ?_, htold⟩
    rcases hwindows hneg with hbehind | ⟨-, hdone, -⟩
    · exact absurd hbehind hnot
    · exact hdone

/-- One hour of a relay that has nothing in it. -/
theorem hour_through :
    let p := (UnitProgress.start "wss://r".toList "1970-01-01".toList 5).replay
      [(.planned 1, 6), (.window 0, 7), (.done 0 0, 9)]
    p.windowsDone = p.windowsTotal ∧ p.seen = 0 := by
  have hhours : hourWindows 0 3600 = [(0, 3600)] := by
    rw [hourWindows, if_pos (by decide)]
    show (0, 3600) :: hourWindows 3600 3600 = _
    rw [hourWindows, if_neg (by decide)]
  obtain ⟨d, hd, hmarks⟩ : ∃ d : DayRun Unit, d.seen = 0 ∧
      scrapeDayLive (cappedRelay edgeStore 3) fullSink 600 0 3600 2 { world := (), info := {} } =
        ([.planned 1, .window 0, .done 0 0], some (.ok (), d)) := by
    unfold scrapeDayLive negStart
    rw [hhours]
    exact ⟨_, rfl, rfl⟩
  have hbar := bar_full (cappedRelay edgeStore 3) fullSink (by decide : 0 < 600)
    (by decide : 0 < 3600) (by decide) 2 () {} "wss://r".toList "1970-01-01".toList 5
    [(.planned 1, 6), (.window 0, 7), (.done 0 0, 9)]
    (by rw [hmarks]; exact List.prefix_refl _)
  rw [← scrapeDayLive_snd, hmarks] at hbar
  obtain ⟨hfull, hfigures⟩ := hbar.2 rfl d rfl
  exact ⟨hfull rfl, hfigures.elim (fun h => h.1.trans hd) fun h => rfl⟩

end NostrSearch.Indexer
