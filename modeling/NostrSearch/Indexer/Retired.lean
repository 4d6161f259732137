import NostrSearch.Indexer.SetAside

/-!
# Retired relays

A relay that keeps failing is set aside for `dead_for_secs`. Within the pass it is left alone for
its term (`retired_left_alone`), but for a call of `plan_batch` that had read the table before. The
next pass does not wait: it releases the relays that were set aside for failures alone, and draws
them at once (`retired_is_released`).
-/

namespace NostrSearch.Indexer

open NostrSearch.Core NostrSearch.Lib

/-- A call's clock was read when it began. -/
def Scraper.CallClock (s : Scraper) : Prop :=
  ∀ call todo out cur looked, s.stage = .planning call todo out cur looked → call.now ≤ s.clock

theorem callClock_step {cfg : ScrapeConfig} {s s' : Scraper} {a : ScraperAct} (h : s.CallClock)
    (hstep : scraperStep cfg s a = some s') : s'.CallClock := by
  have hclock := clock_le_of_step hstep
  intro call todo out cur looked hstage'
  rcases moves_of_step hstep with hmove | hmove
  · cases hmove with
    | plan call' hstage hlimit hle =>
      cases hstage'
      exact le_refl _
    | look call' idx todo' out' looked' hstage hroom =>
      cases hstage'
      exact h _ _ _ _ _ hstage
    | walk call' todo' out' url info looked' hstage =>
      cases hstage'
      exact h _ _ _ _ _ hstage
    | pinned url hstage =>
      rw [hstage] at hstage'
      cases hstage'
    | pin url hstage hnew =>
      rw [Scraper.put, hstage] at hstage'
      cases hstage'
    | _ => cases hstage'
  · cases hmove with
    | unit i a u u' st' clock hu htick hunit => exact (h _ _ _ _ _ hstage').trans hclock
    | _ => exact h _ _ _ _ _ hstage'

/-- Until `term` is over the relay is set aside. -/
structure ServesTerm (url : List Char) (term : ℕ) (s : Scraper) : Prop where
  listed : s.Listed
  callClock : s.CallClock
  aside : s.clock < term → SetAside (fun info => info.deadUntil = some term) url s

theorem servesTerm_step {cfg : ScrapeConfig} {url : List Char} {term : ℕ} {s s' : Scraper}
    {a : ScraperAct} (h : ServesTerm url term s) (ha : a ≠ .begin ∧ a ≠ .reset url)
    (hstep : scraperStep cfg s a = some s') : ServesTerm url term s' where
  listed := listed_step h.listed hstep
  callClock := callClock_step h.callClock hstep
  aside := by
    intro hterm
    have hbefore : s.clock < term := lt_of_le_of_lt (clock_le_of_step hstep) hterm
    refine (h.aside hbefore).step (fun info n hdead => hdead) ?_ h.listed
      (fun heq => absurd heq ha.1) ha.2 hstep
    intro call todo out cur looked hstage info hdead
    have hnow : call.now < term := lt_of_le_of_lt (h.callClock _ _ _ _ _ hstage) hbefore
    rw [RelayInfo.refused, hdead, Option.any_some, decide_eq_true hnow, Bool.true_or, Bool.true_or]

/-- The failure that retires the relay. -/
theorem servesTerm_of_fail {cfg : ScrapeConfig} {s s' : Scraper} {i now now' : ℕ} {u : ScrapeUnit}
    (htied : Tied cfg s) (hlisted : s.Listed) (hcall : s.CallClock) (hu : s.units[i]? = some u)
    (hretires : u.day.info.retires cfg now' = true)
    (hread : ∀ t ∈ s.stage.holds, t.1 ≠ u.day.url)
    (hfail : scraperStep cfg s (.unit i (.fail now now')) = some s') :
    ServesTerm u.day.url (now' + cfg.deadForSecs) s' := by
  refine ⟨listed_step hlisted hfail, callClock_step hcall hfail, fun _ => ?_⟩
  have hrunning : u.day.url ∈ s.running := List.mem_map_of_mem (List.mem_of_getElem? hu)
  have hapart := htied.apart
  rw [List.append_assoc] at hapart
  rcases moves_of_step hfail with hmove | hmove
  · cases hmove
  · cases hmove with
    | unit _ _ u₁ u' st' clock hu₁ htick hunit =>
      rw [hu] at hu₁
      cases hu₁
      have hkey := (unitStep_key hunit).1
      cases unitMove_of_step hunit with
      | fails _ _ hadded =>
        refine ⟨⟨u.day.info.failed cfg now now', Function.update_self .., ?_⟩,
          fun t ht hurl => absurd hurl (hread t ht),
          fun hin => (List.nodup_append.mp hapart).2.2 _ hrunning _ hin rfl, ?_⟩
        · rw [RelayInfo.failed, hretires, if_pos rfl]
        · intro v hv hurl
          rcases mem_set_cases hv with rfl | ⟨j, hij, hj⟩
          · exact Or.inl rfl
          · exact absurd hurl (htied.url_ne hu hj hij)

/-- **A retired relay is left alone in its pass.** Once a unit has retired its relay, and no call has
read the table before and the relay still ahead, the relay is not drawn until its term is over, in
any run without the start of another pass and without a reset of the relay. -/
theorem retired_left_alone {cfg : ScrapeConfig} {st : ScrapeState} {known : List (List Char)}
    (hlisted : ∀ url info, st.relays url = some info → url ∈ known) {as : List ScraperAct}
    {s s' s'' : Scraper} (hrun : run (scraperStep cfg) (scraperStart cfg st known) as = some s)
    {i now now' : ℕ} {u : ScrapeUnit} (hu : s.units[i]? = some u)
    (hretires : u.day.info.retires cfg now' = true)
    (hfail : scraperStep cfg s (.unit i (.fail now now')) = some s')
    (hread : ∀ t ∈ s.stage.holds, t.1 ≠ u.day.url) {bs : List ScraperAct}
    (hbs : ∀ a ∈ bs, a ≠ .begin ∧ a ≠ .reset u.day.url)
    (hlater : run (scraperStep cfg) s' bs = some s'')
    (hterm : s''.clock < now' + cfg.deadForSecs) :
    u.day.url ∉ s''.stage.entered ++ s''.stage.waiting ∧
      ∃ info, s''.state.relays u.day.url = some info ∧
        info.deadUntil = some (now' + cfg.deadForSecs) := by
  have hstart : (scraperStart cfg st known).Listed ∧ (scraperStart cfg st known).CallClock :=
    ⟨hlisted, nofun⟩
  have hfacts : s.Listed ∧ s.CallClock :=
    @run_invariant' _ _ _ (fun s => s.Listed ∧ s.CallClock)
      (fun _ _ _ h hstep => ⟨listed_step h.1 hstep, callClock_step h.2 hstep⟩) _ _ _ hstart hrun
  have hserves :=
    servesTerm_of_fail (tied_run hrun) hfacts.1 hfacts.2 hu hretires hread hfail
  have hend := @run_invariant _ _ (scraperStep cfg)
    (fun _ a => a ≠ .begin ∧ a ≠ .reset u.day.url)
    (ServesTerm u.day.url (now' + cfg.deadForSecs))
    (fun _ _ _ h ha hstep => servesTerm_step h ha hstep) s' s'' bs hserves (along_of_mem hbs)
    hlater
  have haside := hend.aside hterm
  exact ⟨haside.notDrawn, haside.stored⟩

/-- A relay that has been silent for long, and has failed twice. -/
def tiredRelay : RelayInfo :=
  { sources := 1, fails := 2, lastOk := 1, lastFail := 1, nip11 := some true, nip11At := someDay }

/-- Its third failure is about to come. -/
def toTheFailure : List ScraperAct :=
  toTheWalk tiredRelay ++ toTheUnit ++ [.drained, .unit 0 (.begin earlyOn), .unit 0 (.add true)]

def beforeFailure : Scraper :=
  { firstUnit tiredRelay with
    stage := .ready
    units := [⟨olderDay tiredRelay, .added⟩] }

theorem run_beforeFailure :
    run (scraperStep floorConfig)
      (scraperStart floorConfig (stateOf tiredRelay) ["wss://r".toList]) toTheFailure =
        some beforeFailure := by
  refine run_append_some.mpr ⟨firstUnit tiredRelay, run_append_some.mpr ⟨_, rfl, ?_⟩, rfl⟩
  exact run_cons_some.mpr ⟨_, walk_olderDay rfl rfl rfl, rfl⟩

/-- The relay is retired, for a day. -/
def retiredRelay : RelayInfo := tiredRelay.failed floorConfig earlyOn earlyOn

def afterFailure : Scraper :=
  { beforeFailure with
    state := (stateOf tiredRelay).putRelay "wss://r".toList retiredRelay
    units := [⟨{ olderDay tiredRelay with info := retiredRelay }, .recorded⟩] }

theorem step_failure :
    scraperStep floorConfig beforeFailure (.unit 0 (.fail earlyOn earlyOn)) =
      some afterFailure := rfl

/-- The rest of the pass. -/
def toTheEnd : List ScraperAct :=
  [.unit 0 .removed, .gone 0, .relays, .plan (callFor retiredRelay earlyOn), .look, .leave earlyOn]

theorem retired_until_the_end :
    ∃ s, run (scraperStep floorConfig) afterFailure toTheEnd = some s ∧
      "wss://r".toList ∉ s.stage.entered ++ s.stage.waiting ∧
      ∃ info, s.state.relays "wss://r".toList = some info ∧
        info.deadUntil = some (earlyOn + floorConfig.deadForSecs) := by
  have hbs : ∀ a ∈ toTheEnd, a ≠ .begin ∧ a ≠ .reset "wss://r".toList := by
    intro a ha
    simp only [toTheEnd, List.mem_cons, List.not_mem_nil, or_false] at ha
    rcases ha with rfl | rfl | rfl | rfl | rfl | rfl
    all_goals exact ⟨nofun, nofun⟩
  exact ⟨_, rfl, @retired_left_alone floorConfig _ _ (fun _ _ => stateOf_relays) _ beforeFailure
    afterFailure _ run_beforeFailure 0 earlyOn earlyOn _ rfl (by decide) step_failure nofun toTheEnd
    hbs rfl (by decide)⟩

/-- The next pass begins at once. -/
def toTheNextWalk : List ScraperAct :=
  [.begin, .write, .start 100, .relays,
    .plan (callFor { retiredRelay with deadUntil := none, fails := 0 } earlyOn), .look]

/-- A call that has read the table before the failure, and looks at the relay after it. -/
def toTheOldWalk : List ScraperAct :=
  [.relays, .plan (callFor tiredRelay earlyOn), .unit 0 (.fail earlyOn earlyOn), .unit 0 .removed,
    .gone 0, .look]

/-- The term of the relay is not over and it was not reset; the next pass draws it, and so does a call
that goes by an older copy of its record. -/
theorem retired_is_released :
    retiredRelay.deadUntil = some (earlyOn + floorConfig.deadForSecs) ∧
      (∃ s, run (scraperStep floorConfig) afterFailure (toTheEnd ++ (toTheNextWalk ++ [.walk])) =
          some s ∧
        s.clock < earlyOn + floorConfig.deadForSecs ∧ "wss://r".toList ∈ s.stage.waiting) ∧
      ∃ s, run (scraperStep floorConfig) beforeFailure (toTheOldWalk ++ [.walk]) = some s ∧
        s.state.relays "wss://r".toList = some retiredRelay ∧
        s.clock < earlyOn + floorConfig.deadForSecs ∧ "wss://r".toList ∈ s.stage.waiting := by
  refine ⟨rfl, ⟨_, run_append_some.mpr ⟨_, rfl, run_append_some.mpr ⟨_, rfl,
    run_cons_some.mpr ⟨_, walk_olderDay rfl rfl rfl, rfl⟩⟩⟩, ?_, ?_⟩, _, run_append_some.mpr
      ⟨_, rfl, run_cons_some.mpr ⟨_, walk_olderDay rfl rfl rfl, rfl⟩⟩, rfl, ?_, ?_⟩
  all_goals decide

end NostrSearch.Indexer
