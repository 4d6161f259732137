import NostrSearch.Core.ShardNames
import NostrSearch.Indexer.RunPass

/-!
# The sync page

`sync_status` works out the cut and the relays in scope once more, from the same records and the
same environment as the pass that scrapes them. It counts every relay the floor keeps, where the
pass counts those that have answered, and it knows nothing of pins. `agrees_iff` says which states
this shows in; `adaptive_percentile`, whose arithmetic is that of floats, is any function.
-/

namespace NostrSearch.Server

open NostrSearch.Core NostrSearch.Indexer NostrSearch.Lib

/-! ## The environment -/

/-- `std::env::var(k).ok()`, for every name. -/
abbrev Env := String → Option String

/-- `env_u`: a number, or the default. -/
def envU (env : Env) (k : String) (d : ℕ) : ℕ := ((env k).bind parseU64).getD d

/-- `env::list`. -/
def envList (env : Env) (key : String) : List (List Char) :=
  match (env key).filter fun v => v ≠ "" with
  | some v => ((v.toList.splitOn ',').map trim).filter fun s => s ≠ []
  | none => []

/-- `parse_date`: the first second of a day. -/
def parseDate (s : List Char) : Option ℕ :=
  match s.splitOn '-' with
  | y :: m :: d :: _ => do
    let year ← parseI32 y
    let month ← parseUnsigned 32 m
    let day ← parseUnsigned 32 d
    let id : ShardId := { year := year, month := month }
    if 1 ≤ month ∧ month ≤ 12 ∧ -262143 ≤ year ∧ year ≤ 262142 ∧ 1 ≤ day ∧
        id.firstDay + day ≤ id.next.firstDay then
      some (((id.firstDay + day - 1) * 86400) % 2 ^ 64).toNat
    else none
  | _ => none

/-- `SCRAPE_MIN_DATE`. -/
def envMinDate (env : Env) : ℕ :=
  ((env "SCRAPE_MIN_DATE").bind fun v => parseDate v.toList).getD
    ((parseDate "2022-01-01".toList).getD 0)

/-- What `ScraperOptions::from_env` hands to `run_pass` for its scope. -/
structure ScopeConfig where
  minDate : ℕ
  concurrency : ℕ
  usagePercentile : ℕ
  usagePercentileMin : ℕ
  pinnedRelays : List (List Char)

/-- `ScraperOptions::from_env`. -/
def ScopeConfig.fromEnv (env : Env) : ScopeConfig where
  minDate := envMinDate env
  concurrency := envU env "SCRAPE_CONCURRENCY" 50
  usagePercentile := envU env "SCRAPE_USAGE_PERCENTILE" 80 % 2 ^ 32
  usagePercentileMin := envU env "SCRAPE_USAGE_PERCENTILE_MIN" 2 % 2 ^ 32
  pinnedRelays := envList env "SCRAPE_PIN_RELAYS"

/-! ## The two computations -/

/-- The records of finished days, under what stands behind `d|` in their keys. -/
abbrev DayTable := List (List Char × DayDone)

/-- `progress().by_relay`: the days of a relay in the current epoch. -/
def daysDone (days : DayTable) (url : List Char) : ℕ :=
  (days.filter fun d =>
    decide ((splitOnce '|' d.1).map Prod.snd = some url ∧ SYNC_EPOCH ≤ d.2.epoch)).length

/-- The days of some relays. -/
def daysOf (days : DayTable) (kept : RelayTable) : ℕ := (kept.map fun t => daysDone days t.1).sum

/-- Relays that have answered. -/
def answering (kept : RelayTable) : RelayTable := kept.filter fun t => decide (0 < t.2.lastOk)

/-- `scope_coverage`. -/
def scopeCoverage (kept : RelayTable) (days : DayTable) (totalDays : ℕ) : ℕ × ℕ :=
  (daysOf days (answering kept), satMul (answering kept).length (max totalDays 1))

/-- The whole days from `minDate` to the last midnight. -/
def totalDays (minDate now : ℕ) : ℕ := (now - now % 86400 - minDate) / 86400

/-- A relay retired on failures alone is released. -/
def release (t : List Char × RelayInfo) : List Char × RelayInfo :=
  if t.2.deadUntil.isSome ∧ t.2.nip11 ≠ some false then
    (t.1, { t.2 with deadUntil := none, fails := 0 })
  else t

/-- A cut, and the relays it leaves in scope. -/
structure Scope where
  percentile : ℕ
  urls : List (List Char)

/-- What `run_pass` starts with. -/
def passScope (adaptive : ℕ → ℕ → ℕ → ℕ → ℕ) (cfg : ScopeConfig) (now : ℕ) (relays : RelayTable)
    (days : DayTable) : Scope :=
  let relays := relays.map release
  let keptAtMin := topByUsageWeight relays cfg.usagePercentileMin cfg.concurrency
  let coverage := scopeCoverage keptAtMin days (totalDays cfg.minDate now)
  let percentile :=
    adaptive coverage.1 coverage.2 cfg.usagePercentileMin cfg.usagePercentile
  { percentile := percentile
    urls := urlsOf (scrapeTargets relays percentile cfg.concurrency cfg.pinnedRelays) }

/-- What `sync_status` shows. -/
def syncScope (adaptive : ℕ → ℕ → ℕ → ℕ → ℕ) (env : Env) (now : ℕ) (relays : RelayTable)
    (days : DayTable) : Scope :=
  let total := totalDays (envMinDate env) now
  let floorP := envU env "SCRAPE_USAGE_PERCENTILE_MIN" 2 % 2 ^ 32
  let ceilP := envU env "SCRAPE_USAGE_PERCENTILE" 80 % 2 ^ 32
  -- Same floor the scraper applies
  let minKeep := envU env "SCRAPE_CONCURRENCY" 50
  let keptAtFloor := topByUsageWeight relays floorP minKeep
  let cut := adaptive (daysOf days keptAtFloor) (satMul keptAtFloor.length (max total 1)) floorP ceilP
  { percentile := cut, urls := urlsOf (topByUsageWeight relays cut minKeep) }

/-- The page shows the scope of a pass that starts now, whatever `adaptive_percentile` does. -/
def Agrees (env : Env) (now : ℕ) (relays : RelayTable) (days : DayTable) : Prop :=
  ∀ adaptive,
    (syncScope adaptive env now relays days).percentile =
        (passScope adaptive (ScopeConfig.fromEnv env) now relays days).percentile ∧
      ∀ u, u ∈ (syncScope adaptive env now relays days).urls ↔
        u ∈ (passScope adaptive (ScopeConfig.fromEnv env) now relays days).urls

/-- Every relay that the floor keeps has answered. Where there are so many relay-days that the
product is as large as a number gets, it is enough that the others have no days. -/
def FloorAnswers (kept : RelayTable) (days : DayTable) (total : ℕ) : Prop :=
  (∀ t ∈ kept, 0 < t.2.lastOk) ∨
    u64Max ≤ (answering kept).length * max total 1 ∧
      ∀ t ∈ kept, t.2.lastOk = 0 → daysDone days t.1 = 0

/-- Every pinned relay that is not known to be none is in the narrowest cut, up to case and
trailing slashes. -/
def PinsInCut (relays : RelayTable) (minKeep : ℕ) (pins : List (List Char)) : Prop :=
  ∀ t ∈ retained relays, normUrl t.1 ∈ pins.map normUrl →
    ∃ v ∈ urlsOf (topByUsageWeight relays 0 minKeep), normUrl v = normUrl t.1

/-! ## What a release leaves as it is -/

section release

variable {relays : RelayTable} {f : List Char × RelayInfo → List Char × RelayInfo}
  {percentile minKeep : ℕ}

/-- The cut looks at URLs, sources and documents only. -/
theorem top_map (hkey : ∀ t, rankKey (f t) = rankKey t) (hnip : ∀ t, (f t).2.nip11 = t.2.nip11) :
    topByUsageWeight (relays.map f) percentile minKeep =
      (topByUsageWeight relays percentile minKeep).map f := by
  have hsources : ∀ t, (f t).2.sources = t.2.sources := fun t =>
    congrArg keyWeight (hkey t)
  have hretained : retained (relays.map f) = (retained relays).map f := by
    rw [retained, retained, List.filter_map]
    congr 2
    funext t
    rw [Function.comp_apply, hnip]
  have hsort : ((retained relays).map f).insertionSort (fun a b => rankKey a ≤ rankKey b) =
      ((retained relays).insertionSort fun a b => rankKey a ≤ rankKey b).map f := by
    refine (List.map_insertionSort _ _ _ _ ?_).symm
    intro a _ b _
    rw [hkey, hkey]
  have hloop : ∀ want acc keep (l : RelayTable),
      keepLoop want acc keep (l.map f) = keepLoop want acc keep l := by
    intro want acc keep l
    rw [keepLoop_eq, keepLoop_eq, cover_map]
    simp only [hsources]
  have hsum : ∀ l : RelayTable, ((l.map f).map fun t => t.2.sources) = l.map fun t => t.2.sources := by
    intro l
    rw [List.map_map]
    exact List.map_congr_left fun t _ => hsources t
  unfold topByUsageWeight
  dsimp only
  rw [hretained, hsort, hsum, hloop]
  simp only [List.map_eq_nil_iff, ← List.map_take]
  split_ifs <;> rfl

theorem release_eq (t : List Char × RelayInfo) :
    rankKey (release t) = rankKey t ∧ (release t).1 = t.1 ∧ (release t).2.nip11 = t.2.nip11 ∧
      (release t).2.lastOk = t.2.lastOk := by
  unfold release
  split
  · exact ⟨rfl, rfl, rfl, rfl⟩
  · exact ⟨rfl, rfl, rfl, rfl⟩

theorem urlsOf_release (l : RelayTable) : urlsOf (l.map release) = urlsOf l := by
  rw [urlsOf, List.map_map]
  exact List.map_congr_left fun t _ => (release_eq t).2.1

theorem top_release :
    topByUsageWeight (relays.map release) percentile minKeep =
      (topByUsageWeight relays percentile minKeep).map release :=
  top_map (fun t => (release_eq t).1) fun t => (release_eq t).2.2.1

theorem retained_release : retained (relays.map release) = (retained relays).map release := by
  rw [retained, retained, List.filter_map]
  congr 2
  funext t
  rw [Function.comp_apply, (release_eq t).2.2.1]

theorem scopeCoverage_release (kept : RelayTable) (days : DayTable) (total : ℕ) :
    scopeCoverage (kept.map release) days total = scopeCoverage kept days total := by
  have hanswering : answering (kept.map release) = (answering kept).map release := by
    rw [answering, answering, List.filter_map]
    congr 2
    funext t
    rw [Function.comp_apply, (release_eq t).2.2.2]
  have hdays : daysOf days ((answering kept).map release) = daysOf days (answering kept) := by
    rw [daysOf, List.map_map]
    exact congrArg List.sum (List.map_congr_left fun t _ =>
      congrArg (daysDone days) (release_eq t).2.1)
  rw [scopeCoverage, hanswering, hdays, List.length_map, scopeCoverage]

theorem mem_urls_targets_release {pins : List (List Char)} {u : List Char} :
    u ∈ urlsOf (scrapeTargets (relays.map release) percentile minKeep pins) ↔
      u ∈ urlsOf (scrapeTargets relays percentile minKeep pins) := by
  rw [mem_urls_scrapeTargets, mem_urls_scrapeTargets, top_release, retained_release,
    urlsOf_release, urlsOf_release]

end release

/-! ## The pass as a task -/

section pass

variable {cfg : ScrapeConfig}

/-- Records are written back one after the other. -/
theorem run_writes (todo : RelayTable) (s : Scraper) :
    run (scraperStep cfg) { s with stage := .writing todo true }
        (List.replicate todo.length .write) =
      some { todo.foldl (fun s t => s.put t.1 t.2) s with stage := .writing [] true } := by
  induction todo generalizing s with
  | nil => rfl
  | cons t todo ih =>
    rw [List.length_cons, List.replicate_succ, run_cons]
    exact ih (s.put t.1 t.2)

theorem known_foldl_put {todo : RelayTable} {s : Scraper} (h : ∀ t ∈ todo, t.1 ∈ s.known) :
    (todo.foldl (fun s t => s.put t.1 t.2) s).known = s.known := by
  induction todo generalizing s with
  | nil => rfl
  | cons t todo ih =>
    obtain ⟨ht, htodo⟩ := List.forall_mem_cons.mp h
    have hknown : (s.put t.1 t.2).known = s.known := if_pos ht
    rw [List.foldl_cons, ih (hknown.symm ▸ htodo), hknown]

/-- A record that was written is what its URL asks for, whenever it was. -/
theorem relays_foldl_put {g : List Char → RelayInfo} {todo : RelayTable}
    (h : ∀ t ∈ todo, t.2 = g t.1) (s : Scraper) (u : List Char) :
    (todo.foldl (fun s t => s.put t.1 t.2) s).state.relays u =
      if u ∈ urlsOf todo then some (g u) else s.state.relays u := by
  induction todo generalizing s with
  | nil => rfl
  | cons t todo ih =>
    obtain ⟨ht, htodo⟩ := List.forall_mem_cons.mp h
    have hurls : urlsOf (t :: todo) = t.1 :: urlsOf todo := rfl
    rw [List.foldl_cons, ih htodo]
    simp only [hurls, List.mem_cons]
    by_cases hu : u = t.1
    · subst hu
      have hput : (s.put t.1 t.2).state.relays t.1 = some t.2 := Function.update_self _ _ _
      rw [hput, if_pos (Or.inl rfl), ← ht, ite_self]
    · have hput : (s.put t.1 t.2).state.relays u = s.state.relays u :=
        Function.update_of_ne hu _ _
      simp only [hput, hu, false_or]

theorem mem_table {s : Scraper} {t : List Char × RelayInfo} :
    t ∈ s.table ↔ t.1 ∈ s.known ∧ s.state.relays t.1 = some t.2 := by
  obtain ⟨u, info⟩ := t
  rw [Scraper.table, List.mem_filterMap]
  simp only [Option.map_eq_some_iff, Prod.mk.injEq]
  constructor
  · rintro ⟨v, hv, i, hi, rfl, rfl⟩
    exact ⟨hv, hi⟩
  · rintro ⟨hv, hi⟩
    exact ⟨u, hv, info, hi, rfl, rfl⟩

/-- The relays that are released, as they are written back. -/
theorem mem_released {s : Scraper} {t : List Char × RelayInfo} :
    t ∈ released s.table ↔ ∃ info, t.1 ∈ s.known ∧ s.state.relays t.1 = some info ∧
      (info.deadUntil.isSome ∧ info.nip11 ≠ some false) ∧
        t.2 = { info with deadUntil := none, fails := 0 } := by
  rw [released, List.mem_map]
  simp only [List.mem_filter, Bool.and_eq_true, decide_eq_true_eq, mem_table]
  constructor
  · rintro ⟨x, ⟨⟨hknown, hinfo⟩, hcond⟩, rfl⟩
    exact ⟨x.2, hknown, hinfo, hcond, rfl⟩
  · rintro ⟨info, hknown, hinfo, hcond, ht⟩
    exact ⟨(t.1, info), ⟨⟨hknown, hinfo⟩, hcond⟩, Prod.ext rfl ht.symm⟩

/-- What is written back releases the table. -/
theorem table_released (s : Scraper) :
    ((released s.table).foldl (fun s t => s.put t.1 t.2) s).table = s.table.map release := by
  have hknown := @known_foldl_put (released s.table) s fun t ht => by
    obtain ⟨-, hknown, -⟩ := mem_released.mp ht
    exact hknown
  have hrelays := @relays_foldl_put
    (fun u => { (s.state.relays u).getD {} with deadUntil := none, fails := 0 })
    (released s.table) (fun t ht => by
      obtain ⟨info, -, hinfo, -, ht⟩ := mem_released.mp ht
      rw [ht, hinfo, Option.getD_some]) s
  generalize (released s.table).foldl (fun s t => s.put t.1 t.2) s = w at hknown hrelays ⊢
  have hw : w.table = s.known.filterMap fun u => (w.state.relays u).map fun info => (u, info) := by
    rw [Scraper.table, hknown]
  have hs : s.table.map release = s.known.filterMap fun u =>
      ((s.state.relays u).map fun info => (u, info)).map release := by
    rw [Scraper.table, List.map_filterMap]
  rw [hw, hs]
  refine List.filterMap_congr fun u hu => ?_
  rw [hrelays u, Option.map_map]
  cases hinfo : s.state.relays u with
  | none =>
    rw [if_neg]
    · rfl
    · intro hurl
      obtain ⟨t, ht, rfl⟩ := List.mem_map.mp hurl
      obtain ⟨info, -, hsome, -, -⟩ := mem_released.mp ht
      rw [hinfo] at hsome
      cases hsome
  | some info =>
    rw [Option.map_some, Function.comp_apply, release]
    by_cases hcond : info.deadUntil.isSome ∧ info.nip11 ≠ some false
    · rw [if_pos, if_pos hcond, Option.map_some, Option.getD_some]
      have hmem : (u, { info with deadUntil := none, fails := 0 }) ∈ released s.table :=
        mem_released.mpr ⟨info, hu, hinfo, hcond, rfl⟩
      exact List.mem_map_of_mem (f := Prod.fst) hmem
    · rw [if_neg, if_neg hcond, Option.map_some]
      intro hurl
      obtain ⟨t, ht, rfl⟩ := List.mem_map.mp hurl
      obtain ⟨info', -, hsome, hcond', -⟩ := mem_released.mp ht
      rw [hinfo, Option.some.injEq] at hsome
      rw [hsome] at hcond
      exact hcond hcond'

/-- **A pass comes to its scope.** A scraper that is between two passes releases, reads the table,
and has the relays of `passScope` before it. -/
theorem run_to_scope (s : Scraper) (hidle : s.stage = .idle) (adaptive : ℕ → ℕ → ℕ → ℕ → ℕ)
    (scope : ScopeConfig) (hcfg : cfg.concurrency = scope.concurrency ∧
      cfg.pinnedRelays = scope.pinnedRelays) (now : ℕ) (days : DayTable) :
    ∃ s' targets, run (scraperStep cfg) s
        (.begin :: (List.replicate (released s.table).length .write ++
          [.start (passScope adaptive scope now s.table days).percentile, .relays])) = some s' ∧
      s'.stage = .scope targets ∧
      urlsOf targets = (passScope adaptive scope now s.table days).urls := by
  have hbegin : scraperStep cfg s .begin =
      some { s with stage := .writing (released s.table) true } := by
    simp only [scraperStep, planStep, hidle, Option.some_or]
  have htable := table_released s
  rw [run_cons, hbegin, Option.bind_some, run_append, run_writes, Option.bind_some]
  generalize (released s.table).foldl (fun s t => s.put t.1 t.2) s = w at htable
  refine ⟨_, _, rfl, rfl, ?_⟩
  change urlsOf (scrapeTargets w.table _ cfg.concurrency cfg.pinnedRelays) = _
  rw [htable, hcfg.1, hcfg.2]
  rfl

end pass

/-! ## Where the two agree -/

section agree

variable {relays : RelayTable} {minKeep : ℕ}

/-- A wider cut has the relays of the narrowest. -/
theorem urls_top_zero_subset (percentile : ℕ) {u : List Char}
    (h : u ∈ urlsOf (topByUsageWeight relays 0 minKeep)) :
    u ∈ urlsOf (topByUsageWeight relays percentile minKeep) := by
  obtain ⟨t, ht, rfl⟩ := List.mem_map.mp h
  by_cases hall : 100 ≤ percentile ∨ totalSources relays = 0
  · exact List.mem_map_of_mem ((mem_top_of_all hall).mpr (mem_retained_of_mem_top ht))
  · obtain ⟨hpercent, htotal⟩ := not_or.mp hall
    rw [mem_urls_iff_key, top_eq_heaviest (by omega) htotal] at h
    rw [mem_urls_iff_key, top_eq_heaviest hpercent htotal]
    obtain ⟨k, hk, hu⟩ := List.mem_map.mp h
    rw [← hu]
    refine List.mem_map_of_mem ?_
    have hwant : satMul (totalSources relays) 0 / 100 ≤
        satMul (totalSources relays) percentile / 100 := by
      rw [satMul, Nat.mul_zero, Nat.zero_min, Nat.zero_div]
      exact Nat.zero_le _
    have hwider := @heaviest_append _ keyWeight _ _ (max minKeep 1) _
      ((retained relays).map rankKey) [] hwant nofun
    rw [List.append_nil] at hwider
    exact hwider.subset hk

/-- What the page counts is what the pass counts and the days of those that never answered. -/
theorem daysOf_eq (days : DayTable) (kept : RelayTable) :
    daysOf days kept =
      daysOf days (answering kept) + daysOf days (kept.filter fun t => !decide (0 < t.2.lastOk)) := by
  have hperm := List.filter_append_perm (fun t : List Char × RelayInfo => decide (0 < t.2.lastOk)) kept
  rw [daysOf, ← (hperm.map _).sum_eq, List.map_append, List.sum_append]
  rfl

theorem coverage_eq_iff {kept : RelayTable} {days : DayTable} {total : ℕ} :
    scopeCoverage kept days total = (daysOf days kept, satMul kept.length (max total 1)) ↔
      FloorAnswers kept days total := by
  have hsilent : daysOf days (kept.filter fun t => !decide (0 < t.2.lastOk)) = 0 ↔
      ∀ t ∈ kept, t.2.lastOk = 0 → daysDone days t.1 = 0 := by
    rw [daysOf, List.sum_eq_zero_iff]
    simp only [List.mem_map, List.mem_filter, Bool.not_eq_true', decide_eq_false_iff_not,
      Nat.pos_iff_ne_zero, not_not]
    constructor
    · exact fun h t ht hzero => h _ ⟨t, ⟨ht, hzero⟩, rfl⟩
    · rintro h n ⟨t, ⟨ht, hzero⟩, rfl⟩
      exact h t ht hzero
  rw [scopeCoverage, Prod.mk.injEq, FloorAnswers]
  by_cases hall : ∀ t ∈ kept, 0 < t.2.lastOk
  · have hanswering : answering kept = kept :=
      List.filter_eq_self.mpr fun t ht => decide_eq_true (hall t ht)
    rw [hanswering]
    exact ⟨fun _ => Or.inl hall, fun _ => ⟨rfl, rfl⟩⟩
  · have hfewer : (answering kept).length < kept.length := by
      rw [answering, List.length_filter_lt_length_iff_exists]
      push Not at hall
      obtain ⟨t, ht, hzero⟩ := hall
      exact ⟨t, ht, by simpa using hzero⟩
    have hless : (answering kept).length * max total 1 < kept.length * max total 1 :=
      Nat.mul_lt_mul_of_pos_right hfewer (by omega)
    have hexpected : satMul (answering kept).length (max total 1) =
        satMul kept.length (max total 1) ↔ u64Max ≤ (answering kept).length * max total 1 := by
      rw [satMul, satMul]
      omega
    have hdays : daysOf days (answering kept) = daysOf days kept ↔
        daysOf days (kept.filter fun t => !decide (0 < t.2.lastOk)) = 0 := by
      rw [daysOf_eq days kept]
      omega
    rw [hexpected, hdays, hsilent, and_comm]
    exact ⟨Or.inr, fun h => h.resolve_left hall⟩

/-- The two sets agree at every cut if and only if the pins are in the narrowest. -/
theorem targets_eq_iff {pins : List (List Char)} :
    (∀ percentile u, u ∈ urlsOf (topByUsageWeight relays percentile minKeep) ↔
        u ∈ urlsOf (scrapeTargets relays percentile minKeep pins)) ↔
      PinsInCut relays minKeep pins := by
  simp only [mem_urls_scrapeTargets]
  constructor
  · intro h t ht hpin
    by_contra hnone
    push Not at hnone
    have htop := (h 0 t.1).mpr (Or.inr ⟨List.mem_map_of_mem ht, hpin, hnone⟩)
    exact hnone t.1 htop rfl
  · intro h percentile u
    refine ⟨Or.inl, ?_⟩
    rintro (htop | ⟨hall, hpin, hnone⟩)
    · exact htop
    · obtain ⟨t, ht, rfl⟩ := List.mem_map.mp hall
      obtain ⟨v, hv, hsame⟩ := h t ht hpin
      exact absurd hsame (hnone v (urls_top_zero_subset percentile hv))

/-- **When the page shows what is scraped.** -/
theorem agrees_iff (env : Env) (now : ℕ) (relays : RelayTable) (days : DayTable) :
    Agrees env now relays days ↔
      FloorAnswers
          (topByUsageWeight relays (ScopeConfig.fromEnv env).usagePercentileMin
            (ScopeConfig.fromEnv env).concurrency) days
          (totalDays (ScopeConfig.fromEnv env).minDate now) ∧
        PinsInCut relays (ScopeConfig.fromEnv env).concurrency
          (ScopeConfig.fromEnv env).pinnedRelays := by
  rw [← coverage_eq_iff, ← targets_eq_iff]
  set cfg := ScopeConfig.fromEnv env with hcfg
  set kept := topByUsageWeight relays cfg.usagePercentileMin cfg.concurrency with hkept
  have hpass : ∀ adaptive : ℕ → ℕ → ℕ → ℕ → ℕ,
      (passScope adaptive cfg now relays days).percentile =
        adaptive (scopeCoverage kept days (totalDays cfg.minDate now)).1
          (scopeCoverage kept days (totalDays cfg.minDate now)).2 cfg.usagePercentileMin
          cfg.usagePercentile := by
    intro adaptive
    simp only [passScope, top_release, scopeCoverage_release, hkept]
  have hsync : ∀ adaptive : ℕ → ℕ → ℕ → ℕ → ℕ,
      (syncScope adaptive env now relays days).percentile =
        adaptive (daysOf days kept) (satMul kept.length (max (totalDays cfg.minDate now) 1))
          cfg.usagePercentileMin cfg.usagePercentile := fun _ => rfl
  have hurls : ∀ adaptive u, u ∈ (passScope adaptive cfg now relays days).urls ↔
      u ∈ urlsOf (scrapeTargets relays (passScope adaptive cfg now relays days).percentile
        cfg.concurrency cfg.pinnedRelays) := fun _ _ => mem_urls_targets_release
  have hshown : ∀ adaptive u, u ∈ (syncScope adaptive env now relays days).urls ↔
      u ∈ urlsOf (topByUsageWeight relays (syncScope adaptive env now relays days).percentile
        cfg.concurrency) := fun _ _ => Iff.rfl
  constructor
  · intro h
    refine ⟨?_, fun percentile u => ?_⟩
    · -- a function that tells the two pairs of arguments apart
      have hsame := (h fun done expected _ _ =>
        if (done, expected) = scopeCoverage kept days (totalDays cfg.minDate now) then 1 else 0).1
      rw [hsync, hpass, Prod.mk.eta, if_pos rfl] at hsame
      by_contra hne
      rw [if_neg (Ne.symm hne)] at hsame
      exact absurd hsame (by decide)
    · have hsets := (h fun _ _ _ _ => percentile).2 u
      rwa [hurls, hshown, hsync, hpass] at hsets
  · rintro ⟨hcoverage, hsets⟩ adaptive
    have hsame : (syncScope adaptive env now relays days).percentile =
        (passScope adaptive cfg now relays days).percentile := by
      rw [hsync, hpass, hcoverage]
    refine ⟨hsame, fun u => ?_⟩
    rw [hurls, hshown, hsame]
    exact hsets _ u

end agree

/-! ## A pinned relay -/

/-- One relay is pinned, and one worker is asked for. -/
def pinEnv : Env := fun k =>
  if k = "SCRAPE_PIN_RELAYS" then some "wss://pinned.example"
  else if k = "SCRAPE_CONCURRENCY" then some "1"
  else none

/-- The pinned relay is scraped, and the page does not show it. -/
theorem pinned_relay_not_shown :
    ¬ Agrees pinEnv 1700000000
      [("wss://big.example".toList, { sources := 100, lastOk := 1699990000 }),
        ("wss://pinned.example".toList, { lastOk := 1699990000 })] [] := by
  intro h
  have hsets := (h fun _ _ floor _ => floor).2 "wss://pinned.example".toList
  revert hsets
  decide +kernel

end NostrSearch.Server
