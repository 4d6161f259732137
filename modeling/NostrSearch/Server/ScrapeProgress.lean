import NostrSearch.Indexer.StateDb
import NostrSearch.Server.SyncStatus
import NostrSearch.Lib.TopK
import Mathlib.Data.Finset.Sort

/-!
# Progress of the scraper

`progress` walks once through the records of finished days and counts: dates, relay-days, what each
relay has given, the days last finished. The scraper widens its cut by these numbers, and the pages
show them. What they count as finished is what the planner leaves out (`progress_agrees`).
-/

namespace NostrSearch.Server

open NostrSearch.Core NostrSearch.Indexer NostrSearch.Lib

/-- What one relay has produced across every day scraped from it. -/
structure RelayTotals where
  days : ℕ := 0
  seen : ℕ := 0
  new : ℕ := 0

structure ScrapeProgress where
  days : ℕ := 0
  relayDays : ℕ := 0
  staleDays : ℕ := 0
  eventsSeen : ℕ := 0
  eventsNew : ℕ := 0
  oldestDay : Option (List Char) := none
  newestDay : Option (List Char) := none
  recent : List DayEntry := []
  byRelay : List Char → Option RelayTotals := fun _ => none

/-- The variables of the loop. -/
structure ProgressScan where
  p : ScrapeProgress := {}
  recent : List DayEntry := []
  dates : Finset (List Char) := ∅

namespace ProgressScan

/-- One record of the loop, with what its key splits into. -/
def add (s : ProgressScan) (date url : List Char) (done : DayDone) : ProgressScan :=
  let t := (s.p.byRelay url).getD {}
  let t := { t with seen := t.seen + done.seen, new := t.new + done.new }
  let p := { s.p with
    eventsSeen := s.p.eventsSeen + done.seen
    eventsNew := s.p.eventsNew + done.new }
  -- only records of the current epoch are coverage
  if SYNC_EPOCH ≤ done.epoch then
    { p := { p with
        relayDays := p.relayDays + 1
        byRelay := Function.update p.byRelay url (some { t with days := t.days + 1 }) }
      recent := s.recent ++ [{ date, relay := url, seen := done.seen, new := done.new
                               doneAt := done.doneAt }]
      dates := insert date s.dates }
  else
    { s with
      p := { p with
        staleDays := p.staleDays + 1
        byRelay := Function.update p.byRelay url (some t) } }

/-- One entry under `d|`. -/
def step (s : ProgressScan) (e : List Char × List UInt8) : ProgressScan :=
  match splitOnce '|' (e.1.drop 2) with
  | none => s
  | some (date, url) =>
    match decodeDayDone e.2 with
    | none => s
    | some done => s.add date url done

/-- The loop over records that are read already. -/
def ofRows (rows : List DayRow) : ProgressScan :=
  rows.foldl (fun s row => s.add row.date row.url row.day) {}

/-- What is left to do behind the loop. -/
def finish (s : ProgressScan) (recentLimit : ℕ) : ScrapeProgress :=
  { s.p with
    days := s.dates.card
    oldestDay := (s.dates.sort (· ≤ ·)).head?
    newestDay := (s.dates.sort (· ≤ ·)).getLast?
    recent := (s.recent.mergeSort fun a b => decide (b.doneAt ≤ a.doneAt)).take recentLimit }

end ProgressScan

/-- `progress`. -/
def progress (db : StateDb) (recentLimit : ℕ) : ScrapeProgress :=
  ((db.scan ['d', '|']).foldl ProgressScan.step {}).finish recentLimit

/-- The records of finished days, under what stands behind `d|` in their keys. -/
def dayTable (db : StateDb) : DayTable :=
  (db.scan ['d', '|']).filterMap fun e =>
    (decodeDayDone e.2).map fun done => (e.1.drop 2, done)

/-! ## What the loop has counted -/

/-- A record of the current epoch. -/
def finished (row : DayRow) : Bool := decide (SYNC_EPOCH ≤ row.day.epoch)

/-- What some records say of a relay. -/
def totals (rows : List DayRow) (url : List Char) : RelayTotals where
  days := (rows.filter fun row => decide (row.url = url) && finished row).length
  seen := ((rows.filter fun row => row.url = url).map fun row => row.day.seen).sum
  new := ((rows.filter fun row => row.url = url).map fun row => row.day.new).sum

/-- The variables of the loop after some records. -/
structure Counted (rows : List DayRow) (s : ProgressScan) : Prop where
  relayDays : s.p.relayDays = (rows.filter finished).length
  staleDays : s.p.staleDays = (rows.filter fun row => !finished row).length
  eventsSeen : s.p.eventsSeen = (rows.map fun row => row.day.seen).sum
  eventsNew : s.p.eventsNew = (rows.map fun row => row.day.new).sum
  byRelay : ∀ url, (s.p.byRelay url).getD {} = totals rows url
  recent : s.recent = (rows.filter finished).map DayRow.entry
  dates : s.dates = ((rows.filter finished).map DayRow.date).toFinset

theorem totals_concat (rows : List DayRow) (row : DayRow) (url : List Char) :
    totals (rows ++ [row]) url =
      if row.url = url then
        { days := (totals rows url).days + if finished row then 1 else 0
          seen := (totals rows url).seen + row.day.seen
          new := (totals rows url).new + row.day.new }
      else totals rows url := by
  unfold totals
  by_cases hurl : row.url = url
  · cases hdone : finished row <;> simp [hurl, hdone]
  · simp [hurl]

theorem Counted.add {rows : List DayRow} {s : ProgressScan} (h : Counted rows s) (row : DayRow) :
    Counted (rows ++ [row]) (s.add row.date row.url row.day) := by
  have hrelay : ∀ (t : RelayTotals) (url : List Char),
      totals (rows ++ [row]) row.url = t →
      (Function.update s.p.byRelay row.url (some t) url).getD {} = totals (rows ++ [row]) url := by
    intro t url ht
    by_cases hurl : url = row.url
    · rw [hurl, Function.update_self, Option.getD_some, ht]
    · rw [Function.update_of_ne hurl, h.byRelay, totals_concat, if_neg (Ne.symm hurl)]
  unfold ProgressScan.add
  by_cases hdone : SYNC_EPOCH ≤ row.day.epoch
  · have hfin : finished row = true := decide_eq_true hdone
    rw [if_pos hdone]
    exact {
      relayDays := by simp [h.relayDays, hfin]
      staleDays := by simp [h.staleDays, hfin]
      eventsSeen := by simp [h.eventsSeen]
      eventsNew := by simp [h.eventsNew]
      byRelay := fun url => hrelay _ url (by
        rw [totals_concat, if_pos rfl, hfin, if_pos rfl, h.byRelay])
      recent := by
        rw [h.recent, List.filter_append, List.filter_singleton, hfin, List.map_append]
        rfl
      dates := by
        rw [h.dates, List.filter_append, List.filter_singleton, hfin, List.map_append,
          List.toFinset_append, Finset.union_comm]
        rfl }
  · have hfin : finished row = false := decide_eq_false hdone
    rw [if_neg hdone]
    exact {
      relayDays := by simp [h.relayDays, hfin]
      staleDays := by simp [h.staleDays, hfin]
      eventsSeen := by simp [h.eventsSeen]
      eventsNew := by simp [h.eventsNew]
      byRelay := fun url => hrelay _ url (by
        rw [totals_concat, if_pos rfl, hfin, if_neg Bool.false_ne_true, h.byRelay]
        rfl)
      recent := by simp [h.recent, hfin]
      dates := by simp [h.dates, hfin] }

theorem counted (rows : List DayRow) : Counted rows (ProgressScan.ofRows rows) := by
  induction rows using List.reverseRecOn with
  | nil => exact ⟨rfl, rfl, rfl, rfl, fun url => rfl, rfl, rfl⟩
  | append_singleton rows row ih =>
    rw [ProgressScan.ofRows, List.foldl_append, List.foldl_cons, List.foldl_nil]
    exact ih.add row

/-- The loop is over the records that a walk without a filter passes on. -/
theorem foldl_step (db : StateDb) :
    (db.scan ['d', '|']).foldl ProgressScan.step {} = ProgressScan.ofRows (db.forEachDay {}) := by
  rw [ProgressScan.ofRows, StateDb.forEachDay, List.foldl_filterMap]
  congr 1
  funext s e
  unfold ProgressScan.step
  cases splitOnce '|' (e.1.drop 2) with
  | none => rfl
  | some p => cases decodeDayDone e.2 <;> simp [DayFilter.wants]

theorem isLeast_head? {s : Finset (List Char)} {x : List Char} :
    (s.sort (· ≤ ·)).head? = some x ↔ IsLeast {d | d ∈ s} x := by
  have hmem : ∀ d, d ∈ s.sort (· ≤ ·) ↔ d ∈ s := fun d => Finset.mem_sort (· ≤ ·)
  have hsorted := Finset.pairwise_sort s (· ≤ ·)
  cases hl : s.sort (· ≤ ·) with
  | nil =>
    rw [hl] at hmem
    exact iff_of_false (fun h => by cases h) fun h => List.not_mem_nil ((hmem x).mpr h.1)
  | cons a l =>
    rw [hl] at hmem hsorted
    have hleast : IsLeast {d | d ∈ s} a := by
      refine ⟨(hmem a).mp List.mem_cons_self, fun d hd => ?_⟩
      rcases List.mem_cons.mp ((hmem d).mpr hd) with rfl | hd
      · exact le_refl _
      · exact (List.pairwise_cons.mp hsorted).1 d hd
    rw [List.head?_cons, Option.some.injEq]
    exact ⟨fun h => by rwa [← h], fun h => hleast.unique h⟩

theorem isGreatest_getLast? {s : Finset (List Char)} {x : List Char} :
    (s.sort (· ≤ ·)).getLast? = some x ↔ IsGreatest {d | d ∈ s} x := by
  have hmem : ∀ d, d ∈ s.sort (· ≤ ·) ↔ d ∈ s := fun d => Finset.mem_sort (· ≤ ·)
  have hsorted := Finset.pairwise_sort s (· ≤ ·)
  rcases List.eq_nil_or_concat (s.sort (· ≤ ·)) with hl | ⟨l, a, hl⟩
  · rw [hl] at hmem ⊢
    exact iff_of_false (fun h => by cases h) fun h => List.not_mem_nil ((hmem x).mpr h.1)
  · rw [hl, List.concat_eq_append] at hmem hsorted ⊢
    have hgreatest : IsGreatest {d | d ∈ s} a := by
      refine ⟨(hmem a).mp (List.mem_append_right _ List.mem_cons_self), fun d hd => ?_⟩
      rcases List.mem_append.mp ((hmem d).mpr hd) with hd | hd
      · exact (List.pairwise_append.mp hsorted).2.2 d hd a List.mem_cons_self
      · rw [List.mem_singleton.mp hd]
    rw [List.getLast?_concat, Option.some.injEq]
    exact ⟨fun h => by rwa [← h], fun h => hgreatest.unique h⟩

/-! ## What the numbers say -/

section answers

variable (db : StateDb) (limit : ℕ)

theorem progress_eq :
    progress db limit = (ProgressScan.ofRows (db.forEachDay {})).finish limit := by
  rw [progress, foldl_step]

/-- The finished days, with their relays. -/
def finishedDays : List (List Char × List Char) :=
  ((db.forEachDay {}).filter finished).map fun row => (row.date, row.url)

theorem mem_finishedDays {q : List Char × List Char} :
    q ∈ finishedDays db ↔ '|' ∉ q.1 ∧ db.dayDone q.1 q.2 = true := by
  rw [finishedDays, List.mem_map, ← StateDb.toState_dayDone, ScrapeState.dayDone]
  constructor
  · rintro ⟨row, hrow, rfl⟩
    obtain ⟨hrow, hfin⟩ := List.mem_filter.mp hrow
    obtain ⟨hkey, hbar, -, hday⟩ := StateDb.mem_forEachDay.mp hrow
    rw [hkey] at hday
    refine ⟨hbar, ?_⟩
    rw [hday]
    exact hfin
  · rintro ⟨hbar, hdone⟩
    cases hday : db.toState.days (dayKey q.1 q.2) with
    | none =>
      rw [hday] at hdone
      cases hdone
    | some day =>
      rw [hday] at hdone
      exact ⟨{ key := dayKey q.1 q.2, date := q.1, url := q.2, day }, List.mem_filter.mpr
        ⟨StateDb.mem_forEachDay.mpr ⟨rfl, hbar, rfl, hday⟩, hdone⟩, rfl⟩

theorem nodup_finishedDays : (finishedDays db).Nodup :=
  (StateDb.nodup_days db {}).sublist ((List.filter_sublist).map _)

theorem mem_dates {date : List Char} :
    date ∈ (((db.forEachDay {}).filter finished).map DayRow.date).toFinset ↔
      '|' ∉ date ∧ ∃ url, db.dayDone date url = true := by
  have hfst : ((db.forEachDay {}).filter finished).map DayRow.date =
      (finishedDays db).map Prod.fst := by
    rw [finishedDays, List.map_map]
    rfl
  rw [List.mem_toFinset, hfst, List.mem_map]
  constructor
  · rintro ⟨q, hq, rfl⟩
    obtain ⟨hbar, hdone⟩ := (mem_finishedDays db).mp hq
    exact ⟨hbar, q.2, hdone⟩
  · rintro ⟨hbar, url, hdone⟩
    exact ⟨(date, url), (mem_finishedDays db).mpr ⟨hbar, hdone⟩, rfl⟩

theorem totals_days (url : List Char) :
    (totals (db.forEachDay {}) url).days =
      ((finishedDays db).filter fun q => q.2 = url).length := by
  rw [totals, finishedDays, List.filter_map, List.length_map, List.filter_filter]
  rfl

/-- The rows of the finished days, as their records have them. -/
theorem entries_finishedDays :
    ((db.forEachDay {}).filter finished).map DayRow.entry = (finishedDays db).filterMap fun q =>
      (db.toState.days (dayKey q.1 q.2)).map fun day =>
        { date := q.1, relay := q.2, seen := day.seen, new := day.new, doneAt := day.doneAt } := by
  rw [finishedDays, List.filterMap_map, ← List.filterMap_eq_map]
  refine List.filterMap_congr fun row hrow => ?_
  obtain ⟨hkey, -, -, hday⟩ := StateDb.mem_forEachDay.mp (List.mem_filter.mp hrow).1
  rw [hkey] at hday
  rw [Function.comp_apply, Function.comp_apply, hday]
  rfl

/-- The days that the scope of a pass is worked out from. -/
theorem daysDone_dayTable (url : List Char) :
    daysDone (dayTable db) url = (totals (db.forEachDay {}) url).days := by
  rw [daysDone, totals, dayTable, StateDb.forEachDay, ← List.countP_eq_length_filter,
    ← List.countP_eq_length_filter, List.countP_filterMap, List.countP_filterMap]
  refine congrFun (congrArg List.countP (funext fun e => ?_)) _
  cases hsplit : splitOnce '|' (e.1.drop 2) with
  | none => cases decodeDayDone e.2 <;> simp [hsplit]
  | some p => cases decodeDayDone e.2 <;> simp [hsplit, DayFilter.wants, finished]

theorem recent_topBy (rows : List DayEntry) (hrows : rows.Nodup) :
    TopBy DayEntry.doneAt limit rows
      ((rows.mergeSort fun a b => decide (b.doneAt ≤ a.doneAt)).take limit) := by
  refine TopBy.take_of_sorted hrows (List.mergeSort_perm _ _) ?_
  have hsorted := @List.pairwise_mergeSort _
    (fun a b : DayEntry => decide (b.doneAt ≤ a.doneAt))
    (fun a b c hab hbc => decide_eq_true ((of_decide_eq_true hbc).trans (of_decide_eq_true hab)))
    (fun a b => by
      rw [Bool.or_eq_true, decide_eq_true_eq, decide_eq_true_eq]
      exact le_total b.doneAt a.doneAt) rows
  exact hsorted.imp of_decide_eq_true

/-- **Progress counts what the planner leaves out.** -/
theorem progress_agrees (db : StateDb) (limit : ℕ) :
    let p := progress db limit
    (∃ done : List (List Char × List Char), done.Nodup ∧
      (∀ q, q ∈ done ↔ '|' ∉ q.1 ∧ db.dayDone q.1 q.2 = true) ∧
      p.relayDays = done.length ∧ p.days = (done.map Prod.fst).toFinset.card ∧
      (∀ url, ((p.byRelay url).getD {}).days = (done.filter fun q => q.2 = url).length) ∧
      TopBy DayEntry.doneAt limit (done.filterMap fun q =>
        (db.toState.days (dayKey q.1 q.2)).map fun day =>
          { date := q.1, relay := q.2, seen := day.seen, new := day.new, doneAt := day.doneAt })
        p.recent) ∧
    (∀ url, ((p.byRelay url).getD {}).days = daysDone (dayTable db) url) ∧
    (∀ date, p.oldestDay = some date ↔
      IsLeast {d | '|' ∉ d ∧ ∃ url, db.dayDone d url = true} date) ∧
    (∀ date, p.newestDay = some date ↔
      IsGreatest {d | '|' ∉ d ∧ ∃ url, db.dayDone d url = true} date) ∧
    p.relayDays + p.staleDays = (db.daysMatching {} limit).1 := by
  intro p
  have hp : p = _ := progress_eq db limit
  have h := counted (db.forEachDay {})
  generalize ProgressScan.ofRows (db.forEachDay {}) = s at hp h
  have hdates : {d | d ∈ s.dates} = {d | '|' ∉ d ∧ ∃ url, db.dayDone d url = true} := by
    rw [h.dates]
    exact Set.ext fun d => mem_dates db
  rw [hp]
  refine ⟨⟨finishedDays db, nodup_finishedDays db, fun q => mem_finishedDays db, ?_, ?_,
    fun url => ?_, ?_⟩, fun url => ?_, fun date => ?_, fun date => ?_, ?_⟩
  · rw [ProgressScan.finish, finishedDays, List.length_map]
    exact h.relayDays
  · rw [ProgressScan.finish, h.dates, finishedDays, List.map_map]
    rfl
  · rw [ProgressScan.finish, h.byRelay, totals_days]
  · rw [← entries_finishedDays, ← h.recent]
    refine recent_topBy limit s.recent ?_
    rw [h.recent]
    refine List.Nodup.of_map (fun e => (e.date, e.relay)) ?_
    rw [List.map_map]
    exact nodup_finishedDays db
  · rw [ProgressScan.finish, h.byRelay, daysDone_dayTable]
  · rw [ProgressScan.finish, isLeast_head?, hdates]
  · rw [ProgressScan.finish, isGreatest_getLast?, hdates]
  · rw [ProgressScan.finish, StateDb.daysMatching, h.relayDays, h.staleDays]
    exact List.length_eq_length_filter_add _ |>.symm

end answers

end NostrSearch.Server
