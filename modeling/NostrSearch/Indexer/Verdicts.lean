import NostrSearch.Indexer.SetAside

/-!
# The verdict on a relay

A relay that serves no relay document is retired, for as long as `nip11_recheck_secs`, and its unit
would ask again after that. No unit of it is ever started: the cut, the pins and `plan_batch` all
drop whatever has the verdict, whatever its age (`verdict_never_expires`). Only a reset of the relay
takes it away.
-/

namespace NostrSearch.Indexer

open NostrSearch.Core NostrSearch.Lib

/-- It has been found to be no relay. -/
def Rejected (info : RelayInfo) : Prop := info.nip11 = some false

theorem Rejected.refused {info : RelayInfo} (h : Rejected info) (now : ℕ) :
    info.refused now = true := by
  rw [RelayInfo.refused, h, Bool.or_eq_true]
  exact Or.inr (decide_eq_true rfl)

/-- No cut and no pin takes it in. -/
theorem rejected_out_of_scope {s : Scraper} {url : List Char} {info : RelayInfo}
    (hinfo : s.state.relays url = some info) (h : Rejected info) (percentile minKeep : ℕ)
    (pins : List (List Char)) : url ∉ urlsOf (scrapeTargets s.table percentile minKeep pins) := by
  intro hin
  obtain ⟨t, ht, rfl⟩ := List.mem_map.mp hin
  obtain ⟨htable, hnip⟩ := mem_retained.mp (mem_retained_of_mem_scrapeTargets ht)
  rw [mem_table htable] at hinfo
  cases hinfo
  exact hnip h

/-- No call draws it. -/
theorem rejected_not_drawn (cfg : ScrapeConfig) (p : Pass) {call : PlanCall} {url : List Char}
    {info : RelayInfo} (htarget : (url, info) ∈ call.targets) (h : Rejected info) :
    url ∉ (planBatch cfg p call).out.map RelayDay.url := by
  intro hin
  obtain ⟨e, he, rfl⟩ := List.mem_map.mp hin
  have hplanned := planned_planBatch cfg p call
  obtain ⟨day, hlooked, -, -, -, -⟩ := hplanned.mem_out he
  obtain ⟨hskip, i, -, hi⟩ := hplanned.looked _ hlooked
  obtain ⟨j, hj⟩ := List.mem_iff_getElem?.mp htarget
  have hij := PlanCall.index_eq hi hj rfl
  rw [hij, hj] at hi
  cases hi
  rw [skips_eq, h.refused, Bool.true_or] at hskip
  cases hskip

/-- **A verdict does not expire.** Whenever a relay has been found to be none, it is in no scope and
in no batch, however long ago that was; and once no older copy of its record is about, this stays so
in every run in which the relay is not reset. -/
theorem verdict_never_expires {cfg : ScrapeConfig} {st : ScrapeState} {known : List (List Char)}
    (hlisted : ∀ url info, st.relays url = some info → url ∈ known) {as : List ScraperAct}
    {s : Scraper} (hrun : run (scraperStep cfg) (scraperStart cfg st known) as = some s)
    {url : List Char} {info : RelayInfo} (hinfo : s.state.relays url = some info)
    (hnip : info.nip11 = some false) :
    (∀ percentile minKeep pins, url ∉ urlsOf (scrapeTargets s.table percentile minKeep pins)) ∧
      (∀ (p : Pass) (call : PlanCall), (url, info) ∈ call.targets →
        url ∉ (planBatch cfg p call).out.map RelayDay.url) ∧
      (SetAside Rejected url s → ∀ bs s', (∀ a ∈ bs, a ≠ .reset url) →
        run (scraperStep cfg) s bs = some s' → SetAside Rejected url s') := by
  refine ⟨rejected_out_of_scope hinfo hnip, fun p call ht => rejected_not_drawn cfg p ht hnip, ?_⟩
  intro haside bs s' hbs hlater
  have hstart : (scraperStart cfg st known).Listed := hlisted
  have hs : s.Listed := run_invariant' (fun _ _ _ h hstep => listed_step h hstep) hstart hrun
  refine (@run_invariant _ _ (scraperStep cfg) (fun _ a => a ≠ .reset url)
    (fun s => s.Listed ∧ SetAside Rejected url s) ?_ s s' bs ⟨hs, haside⟩ (along_of_mem hbs)
    hlater).2
  rintro s₁ a s₂ ⟨hlisted₁, haside₁⟩ ha hstep
  refine ⟨listed_step hlisted₁ hstep, haside₁.step (fun _ _ h => h) ?_ hlisted₁ (fun _ _ h => h) ha
    hstep⟩
  intro call todo out cur looked _ info' h
  exact h.refused call.now

/-- A relay that a thousand people advertise, and that nothing is known of. -/
def popularRelay : RelayInfo := { sources := 1000 }

/-- It serves no document when it is first asked. -/
def toTheVerdict : List ScraperAct :=
  toTheWalk popularRelay ++ toTheUnit ++
    [.drained, .unit 0 (.begin earlyOn), .unit 0 (.answer (some false))]

/-- Rejected until a week later. -/
def rejectedRelay : RelayInfo := popularRelay.condemned floorConfig earlyOn

def afterVerdict : Scraper :=
  { firstUnit popularRelay with
    state := (stateOf popularRelay).putRelay "wss://r".toList rejectedRelay
    stage := .ready
    units := [⟨{ olderDay popularRelay with info := rejectedRelay }, .over⟩] }

theorem run_afterVerdict :
    run (scraperStep floorConfig)
      (scraperStart floorConfig (stateOf popularRelay) ["wss://r".toList]) toTheVerdict =
        some afterVerdict := by
  refine run_append_some.mpr ⟨firstUnit popularRelay, run_append_some.mpr ⟨_, rfl, ?_⟩, rfl⟩
  exact run_cons_some.mpr ⟨_, walk_olderDay rfl rfl rfl, rfl⟩

theorem verdict_out_of_scope :
    "wss://r".toList ∉ urlsOf (scrapeTargets afterVerdict.table 80 50 ["wss://r".toList]) :=
  (@verdict_never_expires floorConfig _ _ (fun _ _ => stateOf_relays) _ afterVerdict
    run_afterVerdict "wss://r".toList rejectedRelay rfl rfl).1 80 50 ["wss://r".toList]

/-- The verdict is older than a week, the term is over and the relay never failed; though pinned, it
is not in scope, and it is refused. -/
theorem old_verdict_stands :
    run (scraperStep floorConfig)
        (scraperStart floorConfig (stateOf popularRelay) ["wss://r".toList]) toTheVerdict =
          some afterVerdict ∧
      afterVerdict.state.relays "wss://r".toList = some rejectedRelay ∧
      floorConfig.nip11RecheckSecs < earlyOn + 604801 - rejectedRelay.nip11At ∧
      rejectedRelay.deadUntil.any (fun t => decide (earlyOn + 604801 < t)) = false ∧
      rejectedRelay.backsOff (earlyOn + 604801) = false ∧
      scrapeTargets afterVerdict.table 100 50 ["wss://r".toList] = [] ∧
      rejectedRelay.refused (earlyOn + 604801) = true :=
  ⟨run_afterVerdict, rfl, by decide, by decide, by decide, by decide, by decide⟩

end NostrSearch.Indexer
