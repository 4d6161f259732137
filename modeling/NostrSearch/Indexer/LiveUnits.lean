import NostrSearch.Indexer.InFlight
import NostrSearch.Indexer.LiveRow
import NostrSearch.Lib.Ranking

/-!
# Units at work

The status page lists the days that are being scraped. Each unit puts a row into a table that all of
them share, under its relay, brings it up to date, and takes it out by a guard that is dropped
however the unit ends. Rows are told apart by the relay alone; that a unit finds its own row, and
takes out its own, rests on there being one unit for each relay (`one_unit_per_relay`).

`LiveScraper` is the scraper of `scraperStep` with the table. A unit inserts its row before anything
else, and the guard is dropped before its relay leaves the in-flight set; status requests come in
between at any point. `live_exact` says what they are shown.
-/

namespace NostrSearch.Indexer

open NostrSearch.Core NostrSearch.Lib

/-! ## The table -/

/-- The rows, by relay. -/
abbrev LiveTable := Finmap fun _ : List Char => UnitProgress

namespace LiveTable

def liveStart (m : LiveTable) (relay date : List Char) (now : ℕ) : LiveTable :=
  m.insert relay (UnitProgress.start relay date now)

def liveUpdate (m : LiveTable) (relay : List Char) (u : LiveUpdate × ℕ) : LiveTable :=
  match m.lookup relay with
  | some p => m.insert relay (p.update u)
  | none => m

def liveEnd (m : LiveTable) (relay : List Char) : LiveTable := m.erase relay

/-- `live_units`: a walk through the hash map, sorted by the time of the last update. -/
def LiveUnits (m : LiveTable) (l : List UnitProgress) : Prop :=
  ∃ walk, IsWalk m walk ∧
    l = (walk.map Prod.snd).mergeSort fun a b => decide (b.updatedAt ≤ a.updatedAt)

end LiveTable

/-! ## The scraper with its table -/

/-- The `LiveGuard` of a unit. What it has done to its row is history. -/
inductive Guard
  /-- before the unit is polled for the first time -/
  | unborn
  | held (since : ℕ) (log : List (LiveUpdate × ℕ))
  | dropped
deriving DecidableEq

/-- What a unit has reported of itself. -/
def Guard.row (d : RelayDay) : Guard → Option UnitProgress
  | .held since log => some ((UnitProgress.start d.url d.date since).replay log)
  | _ => none

/-- `guards` are those of the units, in their order. -/
structure LiveScraper where
  scraper : Scraper
  guards : List Guard
  live : LiveTable

inductive ShownAct
  | step (a : ScraperAct)
  /-- `live_start` -/
  | start (i now : ℕ)
  /-- `live_update` in `scrape_day` -/
  | update (i : ℕ) (u : LiveUpdate × ℕ)
  /-- the guard is dropped -/
  | drop (i : ℕ)

/-- The guards after a step of the scraper, which may need one. -/
def guardsAfter (guards : List Guard) : ScraperAct → Option (List Guard)
  | .spawn => some (guards ++ [.unborn])
  | .unit i _ =>
    match guards[i]? with
    | some (.held _ _) => some guards
    | _ => none
  | .gone i => if guards[i]? = some .dropped then some (guards.eraseIdx i) else none
  | _ => some guards

/-- One step. -/
def liveStep (cfg : ScrapeConfig) (s : LiveScraper) : ShownAct → Option LiveScraper
  | .step a => do
    let guards ← guardsAfter s.guards a
    let scraper ← scraperStep cfg s.scraper a
    some { s with scraper := scraper, guards := guards }
  | .start i now => do
    let u ← s.scraper.units[i]?
    if s.guards[i]? = some .unborn then
      some
        { s with
          guards := s.guards.set i (.held now [])
          live := s.live.liveStart u.day.url u.day.date now }
    else none
  | .update i change => do
    let u ← s.scraper.units[i]?
    match s.guards[i]? with
    | some (.held since log) =>
      if u.stage = .added then
        some
          { s with
            guards := s.guards.set i (.held since (log ++ [change]))
            live := s.live.liveUpdate u.day.url change }
      else none
    | _ => none
  | .drop i => do
    let u ← s.scraper.units[i]?
    match s.guards[i]? with
    | some (.held _ _) =>
      if u.stage = .over then
        some
          { s with
            guards := s.guards.set i .dropped
            live := s.live.liveEnd u.day.url }
      else none
    | _ => none

/-- The scraper is started, with no row in the table. -/
def liveScraper (cfg : ScrapeConfig) (st : ScrapeState) (known : List (List Char)) :
    LiveScraper :=
  { scraper := scraperStart cfg st known, guards := [], live := ∅ }

/-- What the units have reported of themselves, those that are at work. -/
def LiveScraper.rows (s : LiveScraper) : List UnitProgress :=
  (s.scraper.units.zip s.guards).filterMap fun x => x.2.row x.1.day

/-! ## Every unit finds its own row -/

/-- How far a unit with such a guard has come. -/
def Guard.Fits (stage : UnitStage) : Guard → Prop
  | .unborn => stage = .begun
  | .held _ _ => True
  | .dropped => stage = .over

/-- The table has the rows of the units at work, and no others. -/
structure Rowed (cfg : ScrapeConfig) (s : LiveScraper) : Prop where
  tied : Tied cfg s.scraper
  length : s.guards.length = s.scraper.units.length
  rows : ∀ (i : ℕ) (u : ScrapeUnit) (g : Guard),
    s.scraper.units[i]? = some u → s.guards[i]? = some g →
    s.live.lookup u.day.url = g.row u.day ∧ g.Fits u.stage
  others : ∀ url, url ∉ s.scraper.running → s.live.lookup url = none

theorem rowed_start (cfg : ScrapeConfig) (st : ScrapeState) (known : List (List Char)) :
    Rowed cfg (liveScraper cfg st known) where
  tied := tied_start cfg st known
  length := rfl
  rows i u g hu _ := by
    rw [show (liveScraper cfg st known).scraper.units = [] from rfl] at hu
    cases hu
  others url _ := Finmap.lookup_empty url

section steps

variable {cfg : ScrapeConfig} {s : LiveScraper}

/-- One unit works on its guard and its row. -/
theorem Rowed.touch (h : Rowed cfg s) {i : ℕ} {u : ScrapeUnit} (hu : s.scraper.units[i]? = some u)
    {g : Guard} (hfits : g.Fits u.stage) {m : LiveTable} (hown : m.lookup u.day.url = g.row u.day)
    (hother : ∀ url, url ≠ u.day.url → m.lookup url = s.live.lookup url) :
    Rowed cfg { s with guards := s.guards.set i g, live := m } where
  tied := h.tied
  length := by
    show (s.guards.set i g).length = _
    rw [List.length_set]
    exact h.length
  rows := by
    intro j v g' hv hg'
    change (s.guards.set i g)[j]? = some g' at hg'
    rw [List.getElem?_set] at hg'
    split at hg'
    case isTrue hij =>
      subst hij
      have huv : u = v := Option.some.inj (hu.symm.trans hv)
      subst huv
      split at hg'
      · cases hg'
        exact ⟨hown, hfits⟩
      · cases hg'
    case isFalse hij =>
      rw [hother _ (h.tied.url_ne hu hv (Ne.symm hij))]
      exact h.rows j v g' hv hg'
  others := by
    intro url hurl
    have hin : u.day.url ∈ s.scraper.running := List.mem_map_of_mem (List.mem_of_getElem? hu)
    rw [hother url fun heq => hurl (heq ▸ hin)]
    exact h.others url hurl

/-- A step of the scraper that leaves the units as they are. -/
theorem Rowed.frame (h : Rowed cfg s) {t : Scraper} (ht : Tied cfg t)
    (hunits : t.units = s.scraper.units) : Rowed cfg { s with scraper := t } where
  tied := ht
  length := by rw [hunits]; exact h.length
  rows := by rw [hunits]; exact h.rows
  others := by
    intro url hurl
    refine h.others url ?_
    rw [Scraper.running, ← hunits]
    exact hurl

theorem Rowed.spawn (h : Rowed cfg s) {t : Scraper} (ht : Tied cfg t) {day : RelayDay}
    (hunits : t.units = s.scraper.units ++ [⟨day, .begun⟩]) :
    Rowed cfg { s with scraper := t, guards := s.guards ++ [.unborn] } := by
  have hrunning : t.running = s.scraper.running ++ [day.url] := by
    rw [Scraper.running, hunits, List.map_append]
    rfl
  have hnodup : (s.scraper.running ++ [day.url]).Nodup :=
    hrunning ▸ (List.nodup_append.mp (List.nodup_append.mp ht.apart).1).1
  have hnew : day.url ∉ s.scraper.running := fun hin =>
    (List.nodup_append.mp hnodup).2.2 _ hin _ (List.mem_singleton_self _) rfl
  refine ⟨ht, ?_, ?_, ?_⟩
  · show (s.guards ++ [Guard.unborn]).length = t.units.length
    rw [hunits, List.length_append, List.length_append, h.length]
    rfl
  · intro i u g hu hg
    change t.units[i]? = some u at hu
    change (s.guards ++ [Guard.unborn])[i]? = some g at hg
    rw [hunits] at hu
    rcases lt_or_ge i s.scraper.units.length with hlt | hge
    · rw [List.getElem?_append_left hlt] at hu
      rw [List.getElem?_append_left (h.length ▸ hlt)] at hg
      exact h.rows i u g hu hg
    · rw [List.getElem?_append_right hge] at hu
      rw [List.getElem?_append_right (h.length ▸ hge), h.length] at hg
      cases hlast : i - s.scraper.units.length with
      | zero =>
        rw [hlast] at hu hg
        cases hu
        cases hg
        exact ⟨h.others _ hnew, rfl⟩
      | succ k =>
        rw [hlast] at hu
        cases hu
  · intro url hurl
    change url ∉ t.running at hurl
    rw [hrunning, List.mem_append, not_or] at hurl
    exact h.others url hurl.1

theorem Rowed.unit (h : Rowed cfg s) {t : Scraper} (ht : Tied cfg t) {i : ℕ} {u u' : ScrapeUnit}
    {since : ℕ} {log : List (LiveUpdate × ℕ)} (hu : s.scraper.units[i]? = some u)
    (hg : s.guards[i]? = some (.held since log)) (hunits : t.units = s.scraper.units.set i u')
    (hurl : u'.day.url = u.day.url) (hdate : u'.day.date = u.day.date) :
    Rowed cfg { s with scraper := t } := by
  refine ⟨ht, ?_, ?_, ?_⟩
  · show s.guards.length = t.units.length
    rw [hunits, List.length_set]
    exact h.length
  · intro j v g hv hgj
    change t.units[j]? = some v at hv
    change s.guards[j]? = some g at hgj
    rw [hunits, List.getElem?_set] at hv
    split at hv
    case isTrue hij =>
      subst hij
      split at hv
      · cases hv
        have hheld : Guard.held since log = g := Option.some.inj (hg.symm.trans hgj)
        subst hheld
        refine ⟨?_, trivial⟩
        show s.live.lookup u'.day.url = _
        rw [hurl, (h.rows i u _ hu hg).1, Guard.row, Guard.row, hurl, hdate]
      · cases hv
    case isFalse => exact h.rows j v g hv hgj
  · intro url hnot
    change url ∉ t.running at hnot
    rw [Scraper.running, hunits, running_set hu hurl] at hnot
    exact h.others url hnot

theorem Rowed.gone (h : Rowed cfg s) {t : Scraper} (ht : Tied cfg t) {i : ℕ} {u : ScrapeUnit}
    (hu : s.scraper.units[i]? = some u) (hg : s.guards[i]? = some .dropped)
    (hunits : t.units = s.scraper.units.eraseIdx i) :
    Rowed cfg { s with scraper := t, guards := s.guards.eraseIdx i } := by
  refine ⟨ht, ?_, ?_, ?_⟩
  · show (s.guards.eraseIdx i).length = t.units.length
    rw [hunits, List.length_eraseIdx, List.length_eraseIdx, h.length]
  · intro j v g hv hgj
    change t.units[j]? = some v at hv
    change (s.guards.eraseIdx i)[j]? = some g at hgj
    rw [hunits, List.getElem?_eraseIdx] at hv
    rw [List.getElem?_eraseIdx] at hgj
    split at hv
    case isTrue hij =>
      rw [if_pos hij] at hgj
      exact h.rows j v g hv hgj
    case isFalse hij =>
      rw [if_neg hij] at hgj
      exact h.rows (j + 1) v g hv hgj
  · intro url hnot
    change url ∉ t.running at hnot
    by_cases hurl : url = u.day.url
    · rw [hurl, (h.rows i u _ hu hg).1]
      rfl
    · refine h.others url fun hin => hnot ?_
      have hrunning : t.running = s.scraper.running.eraseIdx i := by
        rw [Scraper.running, hunits, Scraper.running, List.eraseIdx_map]
      have hnodup : s.scraper.running.Nodup :=
        (List.nodup_append.mp (List.nodup_append.mp h.tied.apart).1).1
      have hat : s.scraper.running[i]? = some u.day.url := by
        rw [Scraper.running, List.getElem?_map, hu, Option.map_some]
      rw [hrunning]
      exact (erase_idx_of_nodup hnodup hat url).mpr ⟨hin, hurl⟩

end steps

/-- What a step of the scraper does to the units; `rest` are the steps that need no guard. -/
inductive UnitsMove (s t : Scraper) : ScraperAct → Prop
  | spawn (day : RelayDay) (hunits : t.units = s.units ++ [⟨day, .begun⟩]) : UnitsMove s t .spawn
  | unit (i : ℕ) (a : UnitAct) (u u' : ScrapeUnit) (hu : s.units[i]? = some u)
      (hurl : u'.day.url = u.day.url) (hdate : u'.day.date = u.day.date)
      (hunits : t.units = s.units.set i u') : UnitsMove s t (.unit i a)
  | gone (i : ℕ) (u : ScrapeUnit) (hu : s.units[i]? = some u)
      (hunits : t.units = s.units.eraseIdx i) : UnitsMove s t (.gone i)
  | rest (a : ScraperAct) (hguards : ∀ guards, guardsAfter guards a = some guards)
      (hunits : t.units = s.units) : UnitsMove s t a

theorem unitsMove_of_step {cfg : ScrapeConfig} {s t : Scraper} {a : ScraperAct}
    (h : scraperStep cfg s a = some t) : UnitsMove s t a := by
  rcases moves_of_step h with hmove | hmove
  · cases hmove with
    | spawn day batch hstage => exact .spawn day rfl
    | _ => exact .rest _ (fun _ => rfl) rfl
  · cases hmove with
    | unit i a u u' st' clock hu htick hstep =>
      exact .unit i a u u' hu (unitStep_key hstep).1 (unitStep_key hstep).2.1 rfl
    | gone i u hu hover => exact .gone i u hu rfl
    | _ => exact .rest _ (fun _ => rfl) rfl

theorem rowed_scraper {cfg : ScrapeConfig} {s : LiveScraper} (h : Rowed cfg s) {a : ScraperAct}
    {guards : List Guard} {t : Scraper} (hguards : guardsAfter s.guards a = some guards)
    (hstep : scraperStep cfg s.scraper a = some t) :
    Rowed cfg { s with scraper := t, guards := guards } := by
  have ht := tied_step h.tied hstep
  cases unitsMove_of_step hstep with
  | spawn day hunits =>
    cases hguards
    exact h.spawn ht hunits
  | unit i a u u' hu hurl hdate hunits =>
    rw [guardsAfter] at hguards
    split at hguards
    case h_1 since log hg =>
      cases hguards
      exact h.unit ht hu hg hunits hurl hdate
    case h_2 => cases hguards
  | gone i u hu hunits =>
    rw [guardsAfter] at hguards
    split at hguards
    case isTrue hg =>
      cases hguards
      exact h.gone ht hu hg hunits
    case isFalse => cases hguards
  | rest a hrest hunits =>
    rw [hrest] at hguards
    cases hguards
    exact h.frame ht hunits

/-! ## The table after a change -/

namespace LiveTable

variable (m : LiveTable) (relay : List Char)

theorem lookup_liveUpdate (u : LiveUpdate × ℕ) :
    (m.liveUpdate relay u).lookup relay = (m.lookup relay).map fun p => p.update u := by
  unfold liveUpdate
  cases hp : m.lookup relay with
  | some p => exact Finmap.lookup_insert m
  | none => exact hp

theorem lookup_liveUpdate_of_ne (u : LiveUpdate × ℕ) {url : List Char} (hne : url ≠ relay) :
    (m.liveUpdate relay u).lookup url = m.lookup url := by
  unfold liveUpdate
  cases m.lookup relay with
  | some p => exact Finmap.lookup_insert_of_ne m hne
  | none => rfl

end LiveTable

theorem rowed_step {cfg : ScrapeConfig} {s s' : LiveScraper} {a : ShownAct} (h : Rowed cfg s)
    (hstep : liveStep cfg s a = some s') : Rowed cfg s' := by
  cases a with
  | step a =>
    simp only [liveStep, Option.bind_eq_bind, Option.bind_eq_some_iff, Option.some.injEq] at hstep
    obtain ⟨guards, hguards, t, ht, rfl⟩ := hstep
    exact rowed_scraper h hguards ht
  | start i now =>
    simp only [liveStep, Option.bind_eq_bind, Option.bind_eq_some_iff] at hstep
    obtain ⟨u, hu, hstep⟩ := hstep
    split at hstep
    case isTrue hg =>
      cases hstep
      exact h.touch (g := .held now []) hu trivial (Finmap.lookup_insert _) fun url hne =>
        Finmap.lookup_insert_of_ne _ hne
    case isFalse => cases hstep
  | update i change =>
    simp only [liveStep, Option.bind_eq_bind, Option.bind_eq_some_iff] at hstep
    obtain ⟨u, hu, hstep⟩ := hstep
    split at hstep
    case h_1 since log hg =>
      split at hstep
      · cases hstep
        refine h.touch (g := .held since (log ++ [change])) hu trivial ?_ fun url hne =>
          LiveTable.lookup_liveUpdate_of_ne _ _ _ hne
        rw [LiveTable.lookup_liveUpdate, (h.rows i u _ hu hg).1, Guard.row, Guard.row,
          Option.map_some, UnitProgress.replay, UnitProgress.replay, List.foldl_append]
        rfl
      · cases hstep
    case h_2 => cases hstep
  | drop i =>
    simp only [liveStep, Option.bind_eq_bind, Option.bind_eq_some_iff] at hstep
    obtain ⟨u, hu, hstep⟩ := hstep
    split at hstep
    case h_1 since log hg =>
      split at hstep
      case isTrue hover =>
        cases hstep
        exact h.touch (g := .dropped) hu hover (Finmap.lookup_erase _ _) fun url hne =>
          Finmap.lookup_erase_ne hne
      case isFalse => cases hstep
    case h_2 => cases hstep

theorem rowed_run {cfg : ScrapeConfig} {st : ScrapeState} {known : List (List Char)}
    {as : List ShownAct} {s : LiveScraper}
    (hrun : run (liveStep cfg) (liveScraper cfg st known) as = some s) : Rowed cfg s :=
  run_invariant' (fun _ _ _ h hstep => rowed_step h hstep) (rowed_start cfg st known) hrun

/-! ## What is shown -/

theorem Guard.key_row {g : Guard} {d : RelayDay} {p : UnitProgress} (h : g.row d = some p) :
    p.relay = d.url ∧ p.date = d.date := by
  cases g with
  | held since log =>
    cases h
    exact UnitProgress.key_replay _ log
  | unborn => cases h
  | dropped => cases h

theorem relays_sublist (units : List ScrapeUnit) (guards : List Guard) :
    (((units.zip guards).filterMap fun x => x.2.row x.1.day).map UnitProgress.relay).Sublist
      (units.map fun u => u.day.url) := by
  induction units generalizing guards with
  | nil => exact List.Sublist.refl _
  | cons u units ih =>
    cases guards with
    | nil => exact List.nil_sublist _
    | cons g guards =>
      rw [List.zip_cons_cons, List.filterMap_cons]
      cases hrow : g.row u.day with
      | none => exact (ih guards).cons _
      | some p =>
        rw [List.map_cons, List.map_cons, (Guard.key_row hrow).1]
        exact (ih guards).cons_cons _

theorem LiveScraper.mem_rows {s : LiveScraper} {p : UnitProgress} :
    p ∈ s.rows ↔ ∃ (i : ℕ) (u : ScrapeUnit) (g : Guard), s.scraper.units[i]? = some u ∧
      s.guards[i]? = some g ∧ g.row u.day = some p := by
  rw [rows, List.mem_filterMap]
  constructor
  · rintro ⟨⟨u, g⟩, hmem, hrow⟩
    obtain ⟨i, hi⟩ := List.mem_iff_getElem?.mp hmem
    obtain ⟨hu, hg⟩ := List.getElem?_zip_eq_some.mp hi
    exact ⟨i, u, g, hu, hg, hrow⟩
  · rintro ⟨i, u, g, hu, hg, hrow⟩
    exact ⟨(u, g), List.mem_of_getElem? (List.getElem?_zip_eq_some.mpr ⟨hu, hg⟩), hrow⟩

section shown

variable {cfg : ScrapeConfig} {s : LiveScraper}

/-- The table has what the units have reported of themselves. -/
theorem Rowed.lookup_iff (h : Rowed cfg s) {url : List Char} {p : UnitProgress} :
    s.live.lookup url = some p ↔ p ∈ s.rows ∧ p.relay = url := by
  rw [LiveScraper.mem_rows]
  constructor
  · intro hp
    by_cases hin : url ∈ s.scraper.running
    · obtain ⟨u, hmem, rfl⟩ := List.mem_map.mp hin
      obtain ⟨i, hu⟩ := List.mem_iff_getElem?.mp hmem
      have hlt : i < s.guards.length := h.length ▸ (List.getElem?_eq_some_iff.mp hu).1
      obtain ⟨g, hg⟩ : ∃ g, s.guards[i]? = some g := ⟨_, List.getElem?_eq_getElem hlt⟩
      have hrow := (h.rows i u g hu hg).1.symm.trans hp
      exact ⟨⟨i, u, g, hu, hg, hrow⟩, (Guard.key_row hrow).1⟩
    · rw [h.others url hin] at hp
      cases hp
  · rintro ⟨⟨i, u, g, hu, hg, hrow⟩, rfl⟩
    rw [(Guard.key_row hrow).1, (h.rows i u g hu hg).1, hrow]

theorem Rowed.nodup_rows (h : Rowed cfg s) : (s.rows.map UnitProgress.relay).Nodup :=
  (List.nodup_append.mp (List.nodup_append.mp h.tied.apart).1).1.sublist
    (relays_sublist s.scraper.units s.guards)

theorem Rowed.perm_rows (h : Rowed cfg s) {l : List UnitProgress} (hl : s.live.LiveUnits l) :
    l.Perm s.rows := by
  obtain ⟨walk, ⟨hnodup, hmem⟩, rfl⟩ := hl
  refine (List.mergeSort_perm _ _).trans ?_
  have hkey : ∀ e ∈ walk, e.2.relay = e.1 := fun e he =>
    (h.lookup_iff.mp ((hmem e.1 e.2).mp he)).2
  have hrelays : (walk.map Prod.snd).map UnitProgress.relay = walk.map Prod.fst := by
    rw [List.map_map]
    exact List.map_congr_left hkey
  refine (List.perm_ext_iff_of_nodup (List.Nodup.of_map UnitProgress.relay (hrelays ▸ hnodup))
    (h.nodup_rows.of_map UnitProgress.relay)).mpr fun p => ?_
  rw [List.mem_map]
  constructor
  · rintro ⟨e, he, rfl⟩
    exact (h.lookup_iff.mp ((hmem e.1 e.2).mp he)).1
  · intro hp
    exact ⟨(p.relay, p), (hmem p.relay p).mpr (h.lookup_iff.mpr ⟨hp, rfl⟩), rfl⟩

end shown

/-- **What the status page shows.** At any moment, whatever the units, the planner and the
administrator have done, it has the rows of the units at work, each once and as the unit itself has
reported, the latest report first. No unit at work is missing, nothing is shown of one that has
ended in whatever way, and nothing at all between two passes. -/
theorem live_exact {cfg : ScrapeConfig} {st : ScrapeState} {known : List (List Char)}
    {as : List ShownAct} {s : LiveScraper}
    (hrun : run (liveStep cfg) (liveScraper cfg st known) as = some s) {l : List UnitProgress}
    (hl : s.live.LiveUnits l) :
    l.Perm s.rows ∧ l.Pairwise (fun a b => b.updatedAt ≤ a.updatedAt) ∧
      (l.map UnitProgress.relay).Nodup ∧
      (∀ p ∈ l, ∃ u ∈ s.scraper.units, p.relay = u.day.url ∧ p.date = u.day.date) ∧
      (∀ u ∈ s.scraper.units, u.stage ≠ .begun → u.stage ≠ .over →
        ∃ p ∈ l, p.relay = u.day.url ∧ p.date = u.day.date) ∧
      (s.scraper.stage.rests = true → l = []) := by
  have h := rowed_run hrun
  have hperm := h.perm_rows hl
  refine ⟨hperm, ?_, ?_, fun p hp => ?_, fun u hu hbegun hover => ?_, fun hrests => ?_⟩
  · obtain ⟨walk, -, rfl⟩ := hl
    have hsorted := @List.pairwise_mergeSort _
      (fun a b : UnitProgress => decide (b.updatedAt ≤ a.updatedAt))
      (fun a b c hab hbc =>
        decide_eq_true ((of_decide_eq_true hbc).trans (of_decide_eq_true hab)))
      (fun a b => by
        rw [Bool.or_eq_true, decide_eq_true_eq, decide_eq_true_eq]
        exact le_total b.updatedAt a.updatedAt)
      (walk.map Prod.snd)
    exact hsorted.imp fun hle => of_decide_eq_true hle
  · exact (hperm.map UnitProgress.relay).nodup_iff.mpr h.nodup_rows
  · obtain ⟨i, u, g, hu, -, hrow⟩ := LiveScraper.mem_rows.mp (hperm.mem_iff.mp hp)
    exact ⟨u, List.mem_of_getElem? hu, Guard.key_row hrow⟩
  · obtain ⟨i, hi⟩ := List.mem_iff_getElem?.mp hu
    have hlt : i < s.guards.length := h.length ▸ (List.getElem?_eq_some_iff.mp hi).1
    obtain ⟨g, hg⟩ : ∃ g, s.guards[i]? = some g := ⟨_, List.getElem?_eq_getElem hlt⟩
    have hfits := (h.rows i u g hi hg).2
    cases g with
    | unborn => exact absurd hfits hbegun
    | dropped => exact absurd hfits hover
    | held since log =>
      have hp := LiveScraper.mem_rows.mpr ⟨i, u, _, hi, hg, rfl⟩
      exact ⟨_, hperm.mem_iff.mpr hp, UnitProgress.key_replay _ log⟩
  · have hnone : s.scraper.units = [] := h.tied.rests hrests
    rw [LiveScraper.rows, hnone] at hperm
    exact List.perm_nil.mp hperm

/-! ## The first unit of a pass -/

theorem liveStep_step {cfg : ScrapeConfig} {s : LiveScraper} {a : ScraperAct} {guards : List Guard}
    {t : Scraper} (hguards : guardsAfter s.guards a = some guards)
    (hstep : scraperStep cfg s.scraper a = some t) :
    liveStep cfg s (.step a) = some { s with scraper := t, guards := guards } := by
  rw [liveStep, hguards, hstep]
  rfl

/-- Its row. -/
def firstRow : UnitProgress := UnitProgress.start "wss://r".toList "2023-11-15".toList earlyOn

/-- It is shown once it is polled. -/
theorem first_unit_shown :
    ∃ s, run (liveStep floorConfig)
        (liveScraper floorConfig (stateOf openRelay) ["wss://r".toList])
        ((toTheWalk openRelay ++ toTheUnit).map ShownAct.step ++ [.start 0 earlyOn]) = some s ∧
      [firstRow].Perm s.rows ∧
      ∃ u ∈ s.scraper.units, firstRow.relay = u.day.url ∧ firstRow.date = u.day.date := by
  obtain ⟨s, hrun, hlive⟩ : ∃ s, run (liveStep floorConfig)
      (liveScraper floorConfig (stateOf openRelay) ["wss://r".toList])
      ((toTheWalk openRelay ++ toTheUnit).map ShownAct.step ++ [.start 0 earlyOn]) = some s ∧
      s.live = Finmap.insert "wss://r".toList firstRow ∅ := by
    rw [List.map_append, List.append_assoc]
    exact ⟨_, run_append_some.mpr ⟨_, rfl, run_cons_some.mpr
      ⟨_, liveStep_step rfl (walk_olderDay rfl rfl rfl), rfl⟩⟩, rfl⟩
  have hshown : s.live.LiveUnits [firstRow] := by
    refine ⟨[("wss://r".toList, firstRow)], ⟨List.nodup_singleton _, fun k b => ?_⟩,
      (List.mergeSort_singleton firstRow).symm⟩
    rw [hlive, List.mem_singleton, Prod.mk.injEq]
    by_cases hk : k = "wss://r".toList
    · rw [hk, Finmap.lookup_insert, Option.some.injEq, eq_comm (a := b)]
      exact and_iff_right rfl
    · rw [Finmap.lookup_insert_of_ne _ hk, Finmap.lookup_empty]
      refine iff_of_false (fun h => hk h.1) ?_
      rintro ⟨⟩
  have hexact := live_exact hrun hshown
  exact ⟨s, hrun, hexact.1, hexact.2.2.2.1 firstRow (List.mem_singleton_self _)⟩

end NostrSearch.Indexer
