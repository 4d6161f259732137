import NostrSearch.Indexer.PlanSound

/-!
# Cursors across midnight

A cursor counts blocks back from yesterday, and yesterday moves. After a midnight the new yesterday
is in block 0, before every cursor that has moved on, and the days of a passed block slide into
the next one. A relay that was parked is not looked at again in the whole pass
(`parked_for_good`); what `plan_batch` draws is right exactly as long as no day that came in since
the cursor moved lies open in a block it has passed (`newest_first_iff_none_passed`).
-/

namespace NostrSearch.Indexer

open NostrSearch.Core NostrSearch.Lib

/-! ## What midnight does to a cursor -/

/-- The block a day lies in has not been passed by the position. -/
def NotPassed (todayStart : ℕ) (pos : Option BlockPos) (start : ℕ) : Prop :=
  match pos.getD (.block 0) with
  | .block k => start < (blockWindow todayStart k).2
  | .parked => False

theorem cursorOk_iff {cfg : ScrapeConfig} {st : ScrapeState} {todayStart : ℕ} {url : List Char}
    {pos : Option BlockPos} :
    CursorOk cfg st todayStart url pos ↔
      ∀ start, OpenDay cfg st todayStart url start → NotPassed todayStart pos start := by
  unfold CursorOk NotPassed
  cases pos.getD (.block 0) with
  | block k => exact Iff.rfl
  | parked => exact Iff.rfl

/-- Later, an old day is at least as far back, counted in blocks. -/
theorem NotPassed.later {todayStart todayStart' start : ℕ} {pos : Option BlockPos}
    (hle : todayStart ≤ todayStart') (h : NotPassed todayStart pos start) :
    NotPassed todayStart' pos start := by
  unfold NotPassed at *
  cases hp : pos.getD (.block 0) with
  | block k =>
    rw [hp] at h
    have hwindow : (blockWindow todayStart k).2 ≤ (blockWindow todayStart' k).2 := by
      unfold blockWindow
      dsimp only
      omega
    exact lt_of_lt_of_le h hwindow
  | parked =>
    rw [hp] at h
    exact h

/-- A position that meant what it says on an earlier day still does, but for the days since. -/
theorem cursorOk_later {cfg : ScrapeConfig} {st : ScrapeState} {todayStart todayStart' : ℕ}
    {url : List Char} {pos : Option BlockPos} (hle : todayStart ≤ todayStart')
    (h : CursorOk cfg st todayStart url pos) :
    CursorOk cfg st todayStart' url pos ↔
      ∀ start, OpenDay cfg st todayStart' url start → todayStart ≤ start →
        NotPassed todayStart' pos start := by
  rw [cursorOk_iff] at h ⊢
  constructor
  · intro hnow start hopen _
    exact hnow start hopen
  · intro hsince start hopen
    rcases Nat.lt_or_ge start todayStart with hold | hnew
    · have hopen' : OpenDay cfg st todayStart url start :=
        ⟨hopen.aligned, hopen.floor, hold, hopen.notDone⟩
      exact (h start hopen').later hle
    · exact hsince start hopen hnew

/-! ## What one call draws -/

/-- What a call is to draw: days of the newest block in which the relay has an open day, and a day
of every relay it comes to that has an open day at all, parked before or not. -/
structure NewestFirst (cfg : ScrapeConfig) (p : Pass) (call : PlanCall) : Prop where
  entry : ∀ e ∈ (planBatch cfg p call).out, ∃ k, InBlock (dayStart call.now) k e.start ∧
    NewestOpenBlock cfg p.state (dayStart call.now) e.url k
  drawn : ∀ t ∈ (planBatch cfg p call).looked,
    (∃ start, OpenDay cfg p.state (dayStart call.now) t.1 start) →
      t.1 ∈ (planBatch cfg p call).out.map RelayDay.url

/-- A day before today lies in some block. -/
theorem exists_block {todayStart start : ℕ} (hpast : start < todayStart) {k : ℕ}
    (hk : (blockWindow todayStart k).2 ≤ start) : ∃ j < k, InBlock todayStart j start := by
  induction k with
  | zero =>
    rw [blockWindow_zero] at hk
    omega
  | succ k ih =>
    rw [blockWindow_succ] at hk
    rcases Nat.lt_or_ge start (blockWindow todayStart k).2 with hin | hout
    · exact ⟨k, Nat.lt_succ_self k, hk, hin⟩
    · obtain ⟨j, hj, hjin⟩ := ih hout
      exact ⟨j, Nat.lt_succ_of_lt hj, hjin⟩

section call

variable {cfg : ScrapeConfig} {p : Pass} {call : PlanCall}

/-- Blocks do not overlap. -/
private theorem block_unique {todayStart i j start : ℕ} (hi : InBlock todayStart i start)
    (hj : InBlock todayStart j start) : i ≤ j := by
  by_contra hlt
  have hanti := blockWindow_antitone todayStart (Nat.succ_le_of_lt (not_le.mp hlt))
  rw [Nat.succ_eq_add_one, blockWindow_succ] at hanti
  have h1 := hi.2
  have h2 := hj.1
  omega

/-- A walk never goes back: what it draws is not in a block before its position. -/
theorem walkFrom_block (hday : SameDay call) (hfloor : cfg.minDate % 86400 = 0) {url : List Char}
    {pos : Option BlockPos} {k : ℕ} (hpos : pos.getD (.block 0) = .block k)
    {day : List Char × ℕ × ℕ} (h : (walkFrom cfg p.state call url pos).2 = some day) :
    ∃ j, k ≤ j ∧ InBlock (dayStart call.now) j day.2.1 := by
  unfold walkFrom at h
  rw [hpos] at h
  dsimp only at h
  obtain ⟨j, hkj, _, hend⟩ := walkBlocks_spec (dayStart call.now) cfg.minDate
    (openDays cfg p.state call url) (call.draw url) k
  rcases hend with ⟨day', hmem, heq⟩ | ⟨_, heq⟩
  · rw [heq] at h
    cases h
    obtain ⟨start, rfl, _, hin⟩ := (mem_openDays hday hfloor).mp hmem
    exact ⟨j, hkj, hin⟩
  · rw [heq] at h
    cases h

/-- **One call.** It draws what it is to draw exactly if the positions of the relays it comes to
mean what they say. -/
theorem newestFirst_iff (hday : SameDay call) (hfloor : cfg.minDate % 86400 = 0) :
    NewestFirst cfg p call ↔ ∀ t ∈ (planBatch cfg p call).looked,
      CursorOk cfg p.state (dayStart call.now) t.1 (p.blocks t.1) := by
  have hq := planned_planBatch cfg p call
  constructor
  · intro h t ht
    rw [cursorOk_iff]
    intro start hopen
    obtain ⟨e, he, heurl⟩ := List.mem_map.mp (h.drawn t ht ⟨start, hopen⟩)
    obtain ⟨day, _, hwalk, _, hstart, _⟩ := hq.mem_out he
    obtain ⟨i, hin, _, hnewest⟩ := h.entry e he
    rw [heurl] at hwalk hnewest
    unfold NotPassed
    cases hp : (p.blocks t.1).getD (.block 0) with
    | parked =>
      rw [walkOf, walkFrom, hp] at hwalk
      cases hwalk
    | block k =>
      show start < (blockWindow (dayStart call.now) k).2
      by_contra hge
      obtain ⟨j, hj, hjin⟩ := exists_block hopen.past (not_lt.mp hge)
      obtain ⟨j', hj', hjin'⟩ := walkFrom_block hday hfloor hp hwalk
      rw [← hstart] at hjin'
      have hle := block_unique hjin' hin
      exact hnewest j (by omega) start hopen hjin
  · intro h
    refine ⟨fun e he => ?_, fun t ht hopen => ?_⟩
    · obtain ⟨_, _, _, _, _, hblock⟩ := (goodBatch_of_cursorOk hday hfloor h).entry e he
      exact hblock
    · have hspec := walkFrom_spec hday hfloor (h t ht)
      obtain ⟨start, hstart⟩ := hopen
      cases hwalk : (walkOf cfg p call t.1).2 with
      | none => exact absurd hstart (hspec.2.1 hwalk start)
      | some day => exact hq.url_mem_out ht hwalk

end call

/-! ## A pass of any length -/

/-- No day that has become yesterday since the cursor of a relay was moved lies open in a block
which that cursor has passed. -/
def NonePassed (cfg : ScrapeConfig) (p : Pass) (call : PlanCall) : Prop :=
  ∀ t ∈ (planBatch cfg p call).looked, ∀ start,
    OpenDay cfg p.state (dayStart call.now) t.1 start → p.walkedAt t.1 ≤ start →
      NotPassed (dayStart call.now) (p.blocks t.1) start

/-- Every position means what it says on the day it was moved to, which is not after today. -/
structure CursorsDated (cfg : ScrapeConfig) (p : Pass) : Prop where
  cursors : CursorsOk cfg p p.walkedAt
  dated : ∀ url, p.walkedAt url ≤ dayStart p.clock

theorem dayStart_mono {now now' : ℕ} (h : now ≤ now') : dayStart now ≤ dayStart now' := by
  unfold dayStart
  omega

/-- At a call, the days since are all that can be wrong with a position. -/
theorem nonePassed_iff {cfg : ScrapeConfig} {p : Pass} {call : PlanCall}
    (hp : CursorsDated cfg p) (hclock : p.clock ≤ call.now) :
    NonePassed cfg p call ↔ ∀ t ∈ (planBatch cfg p call).looked,
      CursorOk cfg p.state (dayStart call.now) t.1 (p.blocks t.1) := by
  refine forall₂_congr fun t _ => (cursorOk_later ?_ (hp.cursors t.1)).symm
  exact le_trans (hp.dated t.1) (dayStart_mono hclock)

/-- **One step.** A call that finds no open day passed keeps the positions dated. -/
theorem cursorsDated_step {cfg : ScrapeConfig} (hfloor : cfg.minDate % 86400 = 0) {p p' : Pass}
    {a : PassAct} (hp : CursorsDated cfg p) (hday : ∀ call, a = .plan call → SameDay call)
    (hok : ∀ call, a = .plan call → NonePassed cfg p call) (hstep : passStep cfg p a = some p') :
    CursorsDated cfg p' := by
  cases a with
  | plan call =>
    simp only [passStep] at hstep
    split at hstep
    case isFalse => cases hstep
    case isTrue hclock =>
      cases hstep
      have hcur := (nonePassed_iff hp hclock).mp (hok call rfl)
      refine ⟨fun url => ?_, fun url => ?_⟩
      · have hplan := cursorsOk_plan (hday call rfl) hfloor hcur url
        show CursorOk cfg p.state (if _ then _ else _) url ((planBatch cfg p call).blocks url)
        split at hplan
        case isTrue hmem =>
          rw [if_pos hmem]
          exact hplan
        case isFalse hmem =>
          rw [if_neg hmem, hplan]
          exact hp.cursors url
      · show (if _ then _ else _) ≤ dayStart call.now
        split
        · exact le_rfl
        · exact le_trans (hp.dated url) (dayStart_mono hclock)
  | start u =>
    cases hstep
    exact ⟨hp.cursors, hp.dated⟩
  | finish u date info start seen new now =>
    cases hstep
    refine ⟨fun url => ?_, hp.dated⟩
    exact (hp.cursors url).mono fun date' url' h => recordDone_mono info date u start seen new now _ h
  | fail u info =>
    cases hstep
    refine ⟨fun url => ?_, hp.dated⟩
    have hmono : ∀ date url', p.state.dayDone date url' = true →
        (p.state.putRelay u info).dayDone date url' = true := fun _ _ h => h
    exact (hp.cursors url).mono hmono

/-- **Blocks across midnights.** In a pass over any number of days, with no midnight inside a call,
every call draws what it is to draw if and only if none of them finds an open day passed. -/
theorem newest_first_iff_none_passed {cfg : ScrapeConfig} (hfloor : cfg.minDate % 86400 = 0)
    (st : ScrapeState) {as : List PassAct}
    (hday : ∀ a ∈ as, ∀ call, a = PassAct.plan call → SameDay call) :
    Along (passStep cfg) (fun p a => ∀ call, a = PassAct.plan call → NewestFirst cfg p call)
        (passStart st) as ↔
      Along (passStep cfg) (fun p a => ∀ call, a = PassAct.plan call → NonePassed cfg p call)
        (passStart st) as := by
  have hstart : CursorsDated cfg (passStart st) :=
    ⟨cursorsOk_start cfg st _, fun _ => Nat.zero_le _⟩
  refine along_iff_along (fun p a p' hp ha hok hstep => cursorsDated_step hfloor hp ha hok hstep)
    ?_ hstart hday
  intro p a p' hp ha hstep
  refine forall₂_congr fun call hcall => ?_
  subst hcall
  have hclock : p.clock ≤ call.now := by
    simp only [passStep] at hstep
    split at hstep
    case isTrue h => exact h
    case isFalse => cases hstep
  rw [newestFirst_iff (ha call rfl) hfloor, nonePassed_iff hp hclock]

/-- The first call of a pass finds no cursor at all. -/
theorem first_call_newest_first :
    Along (passStep someConfig)
      (fun p a => ∀ call, a = PassAct.plan call → NewestFirst someConfig p call)
      (passStart blankState) [.plan (oneCall "wss://r".toList (someDay + 90000))] := by
  refine (newest_first_iff_none_passed (by decide) blankState ?_).mpr ?_
  · intro a ha call heq
    rw [List.mem_singleton.mp ha] at heq
    cases heq
    exact fun _ _ _ => rfl
  · intro p' _
    refine ⟨fun call heq t _ start hopen _ => ?_, trivial⟩
    have hnone : (passStart blankState).blocks t.1 = none := rfl
    rw [hnone]
    show start < (blockWindow (dayStart call.now) 0).2
    rw [blockWindow_zero]
    exact hopen.past

/-! ## A parked relay -/

theorem planBatch_oneCall (cfg : ScrapeConfig) (p : Pass) (url : List Char) (now : ℕ) :
    planBatch cfg p (oneCall url now) = planRelay cfg p (oneCall url now) url {}
      { out := [], blocks := p.blocks, looked := [] } := rfl

/-- A walk that finds nothing ends parked. -/
theorem walkFrom_parked {cfg : ScrapeConfig} {st : ScrapeState} {call : PlanCall}
    {url : List Char} {pos : Option BlockPos} (h : (walkFrom cfg st call url pos).2 = none) :
    walkFrom cfg st call url pos = (.parked, none) := by
  unfold walkFrom at *
  cases hp : pos.getD (.block 0) with
  | parked => rfl
  | block k =>
    rw [hp] at h
    dsimp only at h ⊢
    obtain ⟨j, _, _, hend⟩ := walkBlocks_spec (dayStart call.now) cfg.minDate
      (openDays cfg st call url) (call.draw url) k
    rcases hend with ⟨day, _, heq⟩ | ⟨_, heq⟩
    · rw [heq] at h
      cases h
    · exact heq

/-- A call for a relay in which nothing is found. -/
theorem planBatch_parked {cfg : ScrapeConfig} {p : Pass} {url : List Char} {now : ℕ}
    (hskip : skips now p.inFlight url {} = false)
    (hwalk : walkFrom cfg p.state (oneCall url now) url (p.blocks url) = (.parked, none)) :
    planBatch cfg p (oneCall url now) =
      { out := [], blocks := Function.update p.blocks url (some .parked), looked := [(url, {})] } := by
  have hnow : (oneCall url now).now = now := rfl
  rw [planBatch_oneCall, planRelay, hnow, hskip, if_neg Bool.false_ne_true]
  dsimp only
  rw [hwalk]
  rfl

/-- A relay of which the only day from the floor on is recorded. -/
def doneState : ScrapeState :=
  blankState.putDay "2023-11-15".toList "wss://r".toList
    { seen := 0, new := 0, doneAt := someDay + 86410, epoch := SYNC_EPOCH }

/-- Nothing before that day is asked for. -/
def floorConfig : ScrapeConfig := { someConfig with minDate := someDay }

/-- Relay `wss://r`, an hour into 2023-11-16 and an hour into 2023-11-17. -/
def twoDays : List PassAct :=
  [.plan (oneCall "wss://r".toList (someDay + 90000)),
    .plan (oneCall "wss://r".toList (someDay + 176400))]

/-- On 2023-11-16 the relay has no open day. -/
theorem doneState_none_open (start : ℕ) :
    ¬ OpenDay floorConfig doneState (dayStart (someDay + 90000)) "wss://r".toList start := by
  intro h
  have hlo : someDay ≤ start := h.floor
  have hhi : start < someDay + 86400 := h.past
  have haligned := h.aligned
  have heq : start = someDay := by
    unfold someDay at *
    omega
  have hdone := h.notDone
  rw [heq] at hdone
  revert hdone
  decide

/-- The walk through its blocks finds nothing, and parks its cursor. -/
theorem doneState_walk_parks :
    walkFrom floorConfig doneState (oneCall "wss://r".toList (someDay + 90000)) "wss://r".toList
      none = (.parked, none) := by
  have hcursor : CursorOk floorConfig doneState (dayStart (someDay + 90000)) "wss://r".toList
      none := fun start h => absurd h (doneState_none_open start)
  have hspec := @walkFrom_spec floorConfig doneState (oneCall "wss://r".toList (someDay + 90000))
    "wss://r".toList (fun _ _ _ => rfl) (by decide) none hcursor
  apply walkFrom_parked
  rw [Option.eq_none_iff_forall_ne_some]
  intro day hday
  obtain ⟨start, _, _, hstart, _⟩ := hspec.1 day hday
  exact doneState_none_open start hstart

/-- The first call parks the relay. A midnight later 2023-11-16 is yesterday and open, and the relay
is not drawn. -/
theorem parked_for_good :
    (∀ a ∈ twoDays, ∀ call, a = PassAct.plan call → SameDay call) ∧
      OpenDay floorConfig doneState (dayStart (someDay + 176400)) "wss://r".toList
        (someDay + 86400) ∧
      ¬ Along (passStep floorConfig)
        (fun p a => ∀ call, a = PassAct.plan call → NewestFirst floorConfig p call)
        (passStart doneState) twoDays := by
  have hopen : OpenDay floorConfig doneState (dayStart (someDay + 176400)) "wss://r".toList
      (someDay + 86400) := ⟨by decide, by decide, by decide, by decide⟩
  refine ⟨?_, hopen, fun halong => ?_⟩
  · intro a ha call heq
    rcases List.mem_cons.mp ha with rfl | ha
    · cases heq
      exact fun _ _ _ => rfl
    · rw [List.mem_singleton.mp ha] at heq
      cases heq
      exact fun _ _ _ => rfl
  · -- nothing is open on the first day, so the first call parks the relay
    have hfirst : planBatch floorConfig (passStart doneState)
        (oneCall "wss://r".toList (someDay + 90000)) = _ :=
      planBatch_parked (by decide) doneState_walk_parks
    obtain ⟨p, hstep, hblocks, hstate, hflight, hclock⟩ : ∃ p, passStep floorConfig
        (passStart doneState) (.plan (oneCall "wss://r".toList (someDay + 90000))) = some p ∧
        p.blocks "wss://r".toList = some .parked ∧ p.state = doneState ∧ p.inFlight = ∅ ∧
        p.clock = someDay + 90000 := by
      refine ⟨_, rfl, ?_, rfl, rfl, rfl⟩
      show (planBatch floorConfig (passStart doneState)
        (oneCall "wss://r".toList (someDay + 90000))).blocks "wss://r".toList = some .parked
      rw [hfirst]
      dsimp only
      rw [Function.update_self]
    obtain ⟨_, hrest⟩ := halong p hstep
    obtain ⟨p', hstep'⟩ : ∃ p', passStep floorConfig p
        (.plan (oneCall "wss://r".toList (someDay + 176400))) = some p' := by
      rw [passStep, if_pos (by rw [hclock]; decide)]
      exact ⟨_, rfl⟩
    -- the second call finds it parked and draws nothing
    have hnewest := (hrest p' hstep').1 _ rfl
    have hsecond : planBatch floorConfig p (oneCall "wss://r".toList (someDay + 176400)) = _ :=
      planBatch_parked (by rw [hflight]; decide) (by rw [hblocks]; rfl)
    have hdrawn := hnewest.drawn ("wss://r".toList, {})
      (by rw [hsecond]; exact List.mem_singleton_self _)
      ⟨someDay + 86400, by rw [hstate]; exact hopen⟩
    rw [hsecond] at hdrawn
    cases hdrawn

end NostrSearch.Indexer
