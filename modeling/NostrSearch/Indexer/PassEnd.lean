import NostrSearch.Indexer.InFlight

/-!
# The end of a pass

A pass ends when a batch comes back empty and nothing is in flight. The batch was drawn before the
in-flight set is looked at again. A relay that was found in flight is passed over, and its unit may
end before that look: then nothing is in flight any more, the relay has open days, and the pass ends
without it (`busy_relay_is_left`). So too for a relay whose backoff runs out in between. Of the
relays that the last call did walk through nothing is left, but for days that have become yesterday
since (`pass_ends_iff`).

`Asked` is history: the first day of a pass on which a relay was walked through from block 0, that
is, up to which day its cursor speaks of its days, and the day of the last call.
-/

namespace NostrSearch.Indexer

open NostrSearch.Core NostrSearch.Lib

/-! ## Cursors and days -/

/-- A walk does not pass an open day. -/
theorem walkFrom_notPassed {cfg : ScrapeConfig} {st : ScrapeState} {call : PlanCall}
    {url : List Char} {pos : Option BlockPos} (hday : SameDay call)
    (hfloor : cfg.minDate % 86400 = 0) {start : ℕ}
    (hopen : OpenDay cfg st (dayStart call.now) url start)
    (hpos : NotPassed (dayStart call.now) pos start) :
    NotPassed (dayStart call.now) (some (walkFrom cfg st call url pos).1) start := by
  unfold NotPassed walkFrom at *
  cases hp : pos.getD (.block 0) with
  | parked =>
    rw [hp] at hpos
    exact hpos.elim
  | block k =>
    rw [hp] at hpos
    dsimp only at hpos ⊢
    obtain ⟨j, hkj, hempty, hend⟩ := walkBlocks_spec (dayStart call.now) cfg.minDate
      (openDays cfg st call url) (call.draw url) k
    have hbelow := open_below hday hfloor hkj hpos hempty hopen
    rcases hend with ⟨day, -, heq⟩ | ⟨hstop, heq⟩
    · rw [heq]
      exact hbelow
    · have hfloor' := hopen.floor
      omega

/-! ## What the calls have asked for -/

/-- Up to which day a relay was asked for, and the day of the last call. -/
structure Asked where
  before : List Char → ℕ
  day : ℕ

/-- A walk from block 0 asks for all that is past. -/
def Asked.note (h : Asked) (s : Scraper) (a : ScraperAct) (_ : Scraper) : Asked :=
  match a, s.stage with
  | .start _, _ => { h with before := fun _ => 0 }
  | .plan call, _ => { h with day := dayStart call.now }
  | .walk, .planning call _ _ (some (url, _)) _ =>
    if (s.blocks url).getD (.block 0) = .block 0 then
      { h with before := Function.update h.before url (dayStart call.now) }
    else h
  | _, _ => h

/-- Before the first pass nothing is asked for. -/
def Asked.start : Asked := { before := fun _ => 0, day := 0 }

/-- The open days that a relay was asked for are before its cursor, and a relay walked through in
vain is parked. -/
structure Searched (cfg : ScrapeConfig) (h : Asked) (s : Scraper) : Prop where
  cursor : ∀ url start, OpenDay cfg s.state (h.before url) url start →
    NotPassed h.day (s.blocks url) start
  before_le : ∀ url, h.before url ≤ h.day
  day_le : h.day ≤ dayStart s.clock
  day : ∀ call todo out cur looked, s.stage = .planning call todo out cur looked →
    h.day = dayStart call.now ∧ SameDay call
  looked : ∀ call todo out cur looked, s.stage = .planning call todo out cur looked →
    ∀ url ∈ looked, url ∉ out.map RelayDay.url → s.blocks url = some .parked

/-- Steps that leave the cursors alone, and record no day as open again. -/
theorem Searched.keep {cfg : ScrapeConfig} {h : Asked} {s s' : Scraper} (hs : Searched cfg h s)
    (hblocks : s'.blocks = s.blocks) (hclock : s.clock ≤ s'.clock)
    (hdone : ∀ date url, s.state.dayDone date url = true → s'.state.dayDone date url = true)
    (hstage : ∀ call todo out cur looked, s'.stage = .planning call todo out cur looked →
      ∃ todo' cur', s.stage = .planning call todo' out cur' looked) : Searched cfg h s' where
  cursor := by
    intro url start hopen
    rw [hblocks]
    exact hs.cursor url start (hopen.mono hdone)
  before_le := hs.before_le
  day_le := hs.day_le.trans (dayStart_mono hclock)
  day := by
    intro call todo out cur looked heq
    obtain ⟨todo', cur', heq'⟩ := hstage call todo out cur looked heq
    exact hs.day _ _ _ _ _ heq'
  looked := by
    intro call todo out cur looked heq
    obtain ⟨todo', cur', heq'⟩ := hstage call todo out cur looked heq
    rw [hblocks]
    exact hs.looked _ _ _ _ _ heq'

section step

variable {cfg : ScrapeConfig} {h : Asked} {s : Scraper}

/-- In a call that is under way. -/
theorem searched_of_planning {call : PlanCall} {todo : List ℕ} {out : List RelayDay}
    {cur : Option (List Char × RelayInfo)} {looked : List (List Char)}
    (hstage : s.stage = .planning call todo out cur looked)
    (hcursor : ∀ url start, OpenDay cfg s.state (h.before url) url start →
      NotPassed h.day (s.blocks url) start)
    (hbefore : ∀ url, h.before url ≤ h.day) (hle : h.day ≤ dayStart s.clock)
    (hday : h.day = dayStart call.now) (hsame : SameDay call)
    (hlooked : ∀ url ∈ looked, url ∉ out.map RelayDay.url → s.blocks url = some .parked) :
    Searched cfg h s where
  cursor := hcursor
  before_le := hbefore
  day_le := hle
  day := by
    intro call' todo' out' cur' looked' heq
    cases hstage.symm.trans heq
    exact ⟨hday, hsame⟩
  looked := by
    intro call' todo' out' cur' looked' heq
    cases hstage.symm.trans heq
    exact hlooked

/-- A later day: the cursors count from there. -/
theorem Searched.plan (hs : Searched cfg h s) {call : PlanCall} (hclock : s.clock ≤ call.now)
    (hsame : SameDay call) :
    Searched cfg { h with day := dayStart call.now }
      { s with clock := call.now, stage := .planning call call.order [] none [] } := by
  have hle : h.day ≤ dayStart call.now := hs.day_le.trans (dayStart_mono hclock)
  exact searched_of_planning rfl (fun url start hopen => (hs.cursor url start hopen).later hle)
    (fun url => (hs.before_le url).trans hle) (le_refl _) rfl hsame nofun

/-- A relay walked through in vain is parked. -/
theorem Searched.parked (hs : Searched cfg h s) {call : PlanCall} {todo : List ℕ}
    {out : List RelayDay} {url : List Char} {info : RelayInfo} {looked : List (List Char)}
    (hstage : s.stage = .planning call todo out (some (url, info)) looked) :
    ∀ u ∈ looked ++ [url], u ∉ (out ++ ((walkFrom cfg s.state call url (s.blocks url)).2.map
      (relayDay url info)).toList).map RelayDay.url →
      Function.update s.blocks url (some (walkFrom cfg s.state call url (s.blocks url)).1) u =
        some .parked := by
  intro u hu hnot
  rw [List.map_append, List.mem_append, not_or] at hnot
  by_cases hurl : u = url
  · subst hurl
    have hnone : (walkFrom cfg s.state call u (s.blocks u)).2 = none := by
      cases hdrawn : (walkFrom cfg s.state call u (s.blocks u)).2 with
      | none => rfl
      | some d =>
        rw [hdrawn] at hnot
        exact absurd (List.mem_singleton_self u) hnot.2
    rw [Function.update_self, walkFrom_parked hnone]
  · rw [Function.update_of_ne hurl]
    refine hs.looked _ _ _ _ _ hstage u ?_ hnot.1
    rcases List.mem_append.mp hu with hin | hlast
    · exact hin
    · exact absurd (List.mem_singleton.mp hlast) hurl

/-- The walk of a relay asks for the days its cursor speaks of, or for all of them. -/
theorem Searched.walk (hfloor : cfg.minDate % 86400 = 0) (hs : Searched cfg h s) {call : PlanCall}
    {todo : List ℕ} {out : List RelayDay} {url : List Char} {info : RelayInfo}
    {looked : List (List Char)}
    (hstage : s.stage = .planning call todo out (some (url, info)) looked) :
    Searched cfg
      (if (s.blocks url).getD (.block 0) = .block 0 then
        { h with before := Function.update h.before url (dayStart call.now) }
      else h)
      { s with
        blocks := Function.update s.blocks url
          (some (walkFrom cfg s.state call url (s.blocks url)).1)
        stage := .planning call todo
          (out ++ ((walkFrom cfg s.state call url (s.blocks url)).2.map
            (relayDay url info)).toList) none (looked ++ [url]) } := by
  obtain ⟨hday, hsame⟩ := hs.day _ _ _ _ _ hstage
  have hparked := hs.parked hstage
  split
  -- from its first block on, the relay is asked for every open day
  case isTrue hzero =>
    refine searched_of_planning rfl (fun u start hopen => ?_) (fun u => ?_) hs.day_le hday hsame
      hparked
    · dsimp only at hopen ⊢
      by_cases hu : u = url
      · subst hu
        rw [Function.update_self] at hopen ⊢
        rw [hday]
        refine walkFrom_notPassed hsame hfloor hopen ?_
        rw [NotPassed, hzero]
        dsimp only
        rw [blockWindow_zero]
        exact hopen.past
      · rw [Function.update_of_ne hu] at hopen ⊢
        exact hs.cursor u start hopen
    · dsimp only
      by_cases hu : u = url
      · subst hu
        rw [Function.update_self, hday]
      · rw [Function.update_of_ne hu]
        exact hs.before_le u
  case isFalse =>
    refine searched_of_planning rfl (fun u start hopen => ?_) hs.before_le hs.day_le hday hsame
      hparked
    dsimp only at hopen ⊢
    by_cases hu : u = url
    · subst hu
      rw [Function.update_self, hday]
      have hpast : OpenDay cfg s.state (dayStart call.now) u start :=
        ⟨hopen.aligned, hopen.floor, hday ▸ lt_of_lt_of_le hopen.past (hs.before_le u),
          hopen.notDone⟩
      refine walkFrom_notPassed hsame hfloor hpast ?_
      rw [← hday]
      exact hs.cursor u start hopen
    · rw [Function.update_of_ne hu]
      exact hs.cursor u start hopen

/-- A pass begins with nothing asked for. -/
theorem Searched.start (hs : Searched cfg h s) (percentile : ℕ) :
    Searched cfg { h with before := fun _ => 0 }
      { s with
        stage := .ready
        percentile := percentile
        blocks := fun _ => none
        inFlight := ∅
        permits := batchSize cfg
        leaving := 0 } where
  cursor := fun _ start hopen => absurd hopen.past (Nat.not_lt_zero start)
  before_le := fun _ => Nat.zero_le _
  day_le := hs.day_le
  day := nofun
  looked := nofun

end step

/-! ## What a pass leaves -/

/-- The relays in scope. -/
def Scraper.targets (cfg : ScrapeConfig) (s : Scraper) : RelayTable :=
  scrapeTargets s.table s.percentile cfg.concurrency cfg.pinnedRelays

end NostrSearch.Indexer
