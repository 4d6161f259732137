import NostrSearch.Indexer.PlanSound
import NostrSearch.Indexer.ScrapeUnit

/-!
# What a finished unit leaves behind

A unit that has ended is to leave either its day done or a record that the planner refuses, else the
same relay-day is drawn again at once. `Recorded` is what the store holds once the outcome is
written. A unit that `add_relay` turns away, or that the backstop drops before, writes no outcome
at all; for a relay-day that was drawn, these two and a backoff that is over when the unit ends are
the only ways to leave no trace (`unit_settles_iff`).
-/

namespace NostrSearch.Indexer

open NostrSearch.Core NostrSearch.Lib

/-- The day is done, or the planner refuses the relay at `t`. -/
def Settled (st : ScrapeState) (day : RelayDay) (t : ℕ) : Prop :=
  st.dayDone day.date day.url = true ∨
    ∃ info, st.relays day.url = some info ∧ info.refused t = true

/-- The acts in which a unit for `day` writes its outcome. -/
def UnitAct.settles (day : RelayDay) : UnitAct → Bool
  | .begin _ => decide (day.info.nip11 = none ∧ looksLikeGeneratedPath day.url = true)
  | .answer (some false) => true
  | .succeed _ _ _ => true
  | .fail _ _ => true
  | _ => false

/-- A failure recorded at `now` keeps the relay from being drawn at `t`. -/
def RelayInfo.failureLasts (cfg : ScrapeConfig) (info : RelayInfo) (now now' t : ℕ) : Bool :=
  (info.failed cfg now now').deadUntil.any (fun d => decide (t < d)) ||
    (info.failed cfg now now').backsOff t

/-- The unit has written an outcome, and a failure's backoff or term is not over. -/
def HasRecorded (cfg : ScrapeConfig) (day : RelayDay) (as : List UnitAct) (t : ℕ) : Prop :=
  (∃ a ∈ as, a.settles day = true) ∧
    ∀ now now', UnitAct.fail now now' ∈ as → day.info.failureLasts cfg now now' t = true

/-- A relay-day as `plan_batch` draws it at `now`. -/
structure DrawnAt (st : ScrapeState) (day : RelayDay) (now : ℕ) : Prop where
  stored : st.relays day.url = some day.info
  drawable : day.info.refused now = false
  isOpen : st.dayDone day.date day.url = false

/-! ## Records of the same standing -/

/-- What the planner looks at, before the outcome: a relay may only have been verified. -/
structure SameStanding (a b : RelayInfo) : Prop where
  fails : b.fails = a.fails
  lastFail : b.lastFail = a.lastFail
  lastOk : b.lastOk = a.lastOk
  deadUntil : b.deadUntil = a.deadUntil
  nip11 : b.nip11 = a.nip11 ∨ b.nip11 = some true

namespace SameStanding

variable {a b : RelayInfo}

theorem refl (a : RelayInfo) : SameStanding a a := ⟨rfl, rfl, rfl, rfl, Or.inl rfl⟩

theorem trans {c : RelayInfo} (h : SameStanding a b) (hbc : SameStanding b c) :
    SameStanding a c where
  fails := hbc.fails.trans h.fails
  lastFail := hbc.lastFail.trans h.lastFail
  lastOk := hbc.lastOk.trans h.lastOk
  deadUntil := hbc.deadUntil.trans h.deadUntil
  nip11 := by
    rcases hbc.nip11 with heq | htrue
    · rw [heq]
      exact h.nip11
    · exact Or.inr htrue

theorem verified (a : RelayInfo) (nowProbe : ℕ) : SameStanding a (a.verified nowProbe) :=
  ⟨rfl, rfl, rfl, rfl, Or.inr rfl⟩

theorem backsOff (h : SameStanding a b) (t : ℕ) : b.backsOff t = a.backsOff t := by
  rw [RelayInfo.backsOff, RelayInfo.backsOff, h.fails, h.lastFail]

/-- Terms and backoffs only run out. -/
theorem refused_later (h : SameStanding a b) {now t : ℕ} (hle : now ≤ t)
    (hnow : a.refused now = false) : b.refused t = false := by
  rw [RelayInfo.refused, Bool.or_eq_false_iff, Bool.or_eq_false_iff] at hnow ⊢
  obtain ⟨⟨hdead, hback⟩, hnip⟩ := hnow
  refine ⟨⟨?_, ?_⟩, ?_⟩
  · rw [h.deadUntil]
    cases hd : a.deadUntil with
    | none => rfl
    | some d =>
      rw [hd, Option.any_some, decide_eq_false_iff_not] at hdead
      rw [Option.any_some, decide_eq_false_iff_not]
      omega
  · rw [h.backsOff]
    rw [RelayInfo.backsOff, decide_eq_false_iff_not] at hback ⊢
    omega
  · rw [decide_eq_false_iff_not] at hnip ⊢
    rcases h.nip11 with heq | htrue
    · rw [heq]
      exact hnip
    · rw [htrue]
      exact fun hcontra => by cases hcontra

theorem retires (h : SameStanding a b) (cfg : ScrapeConfig) (now' : ℕ) :
    b.retires cfg now' = a.retires cfg now' := by
  rw [RelayInfo.retires, RelayInfo.retires, h.fails, h.lastOk]

theorem failed_fields (h : SameStanding a b) (cfg : ScrapeConfig) (now now' : ℕ) :
    (b.failed cfg now now').fails = (a.failed cfg now now').fails ∧
      (b.failed cfg now now').lastFail = (a.failed cfg now now').lastFail ∧
      (b.failed cfg now now').deadUntil = (a.failed cfg now now').deadUntil := by
  unfold RelayInfo.failed
  dsimp only
  rw [h.retires cfg now', h.fails]
  cases a.retires cfg now' with
  | true => exact ⟨rfl, rfl, rfl⟩
  | false => exact ⟨rfl, rfl, h.deadUntil⟩

theorem failureLasts (h : SameStanding a b) (cfg : ScrapeConfig) (now now' t : ℕ) :
    b.failureLasts cfg now now' t = a.failureLasts cfg now now' t := by
  obtain ⟨hfails, hlast, hdead⟩ := h.failed_fields cfg now now'
  rw [RelayInfo.failureLasts, RelayInfo.failureLasts, hdead]
  unfold RelayInfo.backsOff
  rw [hfails, hlast]

end SameStanding

theorem failed_nip11 (cfg : ScrapeConfig) (info : RelayInfo) (now now' : ℕ) :
    (info.failed cfg now now').nip11 = info.nip11 := by
  unfold RelayInfo.failed
  dsimp only
  split
  · rfl
  · rfl

/-- A failed record is refused as long as the failure lasts. -/
theorem refused_failed (cfg : ScrapeConfig) (info : RelayInfo) (now now' t : ℕ) :
    (info.failed cfg now now').refused t =
      (info.failureLasts cfg now now' t || decide (info.nip11 = some false)) := by
  rw [RelayInfo.refused, RelayInfo.failureLasts, failed_nip11]

/-! ## The unit on its way -/

section unit

variable {cfg : ScrapeConfig} {st : ScrapeState} {day : RelayDay}

/-- No outcome is written yet. -/
structure Unwritten (st : ScrapeState) (day : RelayDay) (pre : List UnitAct)
    (s : ScrapeState × ScrapeUnit) : Prop where
  acts : ∀ a ∈ pre, a.settles day = false
  stage : s.2.stage ≠ .recorded
  url : s.2.day.url = day.url
  date : s.2.day.date = day.date
  days : s.1.days = st.days
  carried : SameStanding day.info s.2.day.info
  stored : st.relays day.url = some day.info →
    ∃ info, s.1.relays day.url = some info ∧ SameStanding day.info info
  fresh : s.2.stage = .begun → s.2.day = day

/-- What an outcome leaves in the store. -/
inductive Recorded (cfg : ScrapeConfig) (st : ScrapeState) (day : RelayDay) :
    List UnitAct → ScrapeState → Prop
  | rejected {pre : List UnitAct} {st' : ScrapeState} (info : RelayInfo)
      (hinfo : st'.relays day.url = some info) (hnip : info.nip11 = some false)
      (hfail : ∀ now now', UnitAct.fail now now' ∉ pre) : Recorded cfg st day pre st'
  | done {pre : List UnitAct} {st' : ScrapeState} (hdone : st'.dayDone day.date day.url = true)
      (hfail : ∀ now now', UnitAct.fail now now' ∉ pre) : Recorded cfg st day pre st'
  | failed {pre : List UnitAct} {st' : ScrapeState} (info : RelayInfo) (now now' : ℕ)
      (hinfo : st'.relays day.url = some (info.failed cfg now now'))
      (hsame : SameStanding day.info info) (hdays : st'.days = st.days)
      (hfail : UnitAct.fail now now' ∈ pre)
      (hone : ∀ t t', UnitAct.fail t t' ∈ pre → t = now ∧ t' = now') : Recorded cfg st day pre st'

/-- The outcome is written. -/
structure Written (cfg : ScrapeConfig) (st : ScrapeState) (day : RelayDay) (pre : List UnitAct)
    (s : ScrapeState × ScrapeUnit) : Prop where
  acts : ∃ a ∈ pre, a.settles day = true
  stage : s.2.stage = .recorded ∨ s.2.stage = .over
  store : Recorded cfg st day pre s.1

/-- Acts that record no failure leave the outcome as it is. -/
theorem Recorded.snoc {pre : List UnitAct} {st' : ScrapeState} {a : UnitAct}
    (h : Recorded cfg st day pre st') (ha : ∀ now now', a ≠ .fail now now') :
    Recorded cfg st day (pre ++ [a]) st' := by
  have hmem : ∀ now now', UnitAct.fail now now' ∈ pre ++ [a] → UnitAct.fail now now' ∈ pre := by
    intro now now' hin
    rcases List.mem_append.mp hin with hpre | hlast
    · exact hpre
    · exact absurd (List.mem_singleton.mp hlast).symm (ha now now')
  cases h with
  | rejected info hinfo hnip hfail =>
    exact .rejected info hinfo hnip fun now now' hin => hfail now now' (hmem now now' hin)
  | done hdone hfail => exact .done hdone fun now now' hin => hfail now now' (hmem now now' hin)
  | failed info now now' hinfo hsame hdays hfail hone =>
    exact .failed info now now' hinfo hsame hdays (List.mem_append_left _ hfail)
      fun t t' hin => hone t t' (hmem t t' hin)

/-- Once the outcome is written, the unit only goes away. -/
theorem Written.step {pre : List UnitAct} {s s' : ScrapeState × ScrapeUnit} {a : UnitAct}
    (h : Written cfg st day pre s) (hstep : unitStep cfg s a = some s') :
    Written cfg st day (pre ++ [a]) s' := by
  obtain ⟨b, hb, hset⟩ := h.acts
  have hacts : ∃ c ∈ pre ++ [a], c.settles day = true := ⟨b, List.mem_append_left _ hb, hset⟩
  have hne : ∀ now now', a ≠ .fail now now' := by
    rintro now now' rfl
    cases unitMove_of_step hstep with
    | fails _ _ hadded => rcases h.stage with heq | heq <;> cases hadded.symm.trans heq
  obtain ⟨hst, hover⟩ := unitStep_ended hstep h.stage
  exact ⟨hacts, Or.inr hover, hst ▸ h.store.snoc hne⟩

theorem Unwritten.no_fail {pre : List UnitAct} {s : ScrapeState × ScrapeUnit}
    (h : Unwritten st day pre s) {a : UnitAct} (ha : ∀ now now', a ≠ .fail now now') :
    ∀ now now', UnitAct.fail now now' ∉ pre ++ [a] := by
  intro now now' hin
  rcases List.mem_append.mp hin with hpre | hlast
  · cases h.acts _ hpre
  · exact ha now now' (List.mem_singleton.mp hlast).symm

/-- A stretch that writes no outcome. -/
theorem Unwritten.next {pre : List UnitAct} {s : ScrapeState × ScrapeUnit}
    (h : Unwritten st day pre s) {a : UnitAct} (ha : a.settles day = false) {st' : ScrapeState}
    {info' : RelayInfo} {stage : UnitStage} (hrec : stage ≠ .recorded) (hbegun : stage ≠ .begun)
    (hinfo : SameStanding s.2.day.info info')
    (hst : st' = s.1 ∨ st' = s.1.putRelay s.2.day.url info') :
    Unwritten st day (pre ++ [a]) (st', { day := { s.2.day with info := info' }, stage := stage })
    where
  acts := by
    intro b hb
    rcases List.mem_append.mp hb with hpre | hlast
    · exact h.acts b hpre
    · rw [List.mem_singleton.mp hlast]
      exact ha
  stage := hrec
  url := h.url
  date := h.date
  days := by
    rcases hst with rfl | rfl
    · exact h.days
    · exact h.days
  carried := h.carried.trans hinfo
  stored := by
    intro hin
    rcases hst with rfl | rfl
    · exact h.stored hin
    · refine ⟨info', ?_, h.carried.trans hinfo⟩
      rw [← h.url]
      exact Function.update_self ..
  fresh := fun heq => absurd heq hbegun

/-- A stretch that leaves the record alone. -/
theorem Unwritten.snoc {pre : List UnitAct} {s : ScrapeState × ScrapeUnit}
    (h : Unwritten st day pre s) {a : UnitAct} (ha : a.settles day = false) {stage : UnitStage}
    (hrec : stage ≠ .recorded) (hbegun : stage ≠ .begun) :
    Unwritten st day (pre ++ [a]) (s.1, { s.2 with stage := stage }) :=
  h.next ha hrec hbegun (SameStanding.refl _) (Or.inl rfl)

/-- The unit has been told that its relay is none. -/
theorem Unwritten.reject {pre : List UnitAct} {s : ScrapeState × ScrapeUnit}
    (h : Unwritten st day pre s) {a : UnitAct} (ha : a.settles day = true)
    (hne : ∀ now now', a ≠ .fail now now') (nowProbe : ℕ) :
    Written cfg st day (pre ++ [a])
      (s.2.put s.1 (s.2.day.info.condemned cfg nowProbe) .over) where
  acts := ⟨a, List.mem_append_right _ (List.mem_singleton_self a), ha⟩
  stage := Or.inr rfl
  store := by
    refine .rejected (s.2.day.info.condemned cfg nowProbe) ?_ rfl (h.no_fail hne)
    rw [← h.url]
    exact Function.update_self ..

/-- **One stretch of a unit that has not written its outcome.** -/
theorem Unwritten.step {pre : List UnitAct} {s s' : ScrapeState × ScrapeUnit} {a : UnitAct}
    (h : Unwritten st day pre s) (hstep : unitStep cfg s a = some s') :
    Unwritten st day (pre ++ [a]) s' ∨ Written cfg st day (pre ++ [a]) s' := by
  cases unitMove_of_step hstep with
  | generated nowProbe hbegun hnip hpath =>
    rw [h.fresh hbegun] at hnip hpath
    have hset : (UnitAct.begin nowProbe).settles day = true := decide_eq_true ⟨hnip, hpath⟩
    exact Or.inr (h.reject hset (fun _ _ => nofun) nowProbe)
  | asks nowProbe hbegun hgen hdue =>
    rw [h.fresh hbegun] at hgen
    have hset : (UnitAct.begin nowProbe).settles day = false := decide_eq_false hgen
    exact Or.inl (h.snoc hset nofun nofun)
  | trusts nowProbe hbegun hgen hdue =>
    rw [h.fresh hbegun] at hgen
    have hset : (UnitAct.begin nowProbe).settles day = false := decide_eq_false hgen
    exact Or.inl (h.snoc hset nofun nofun)
  | verified nowProbe hprobing =>
    exact Or.inl (h.next rfl nofun nofun (SameStanding.verified _ nowProbe) (Or.inr rfl))
  | condemned nowProbe hprobing =>
    exact Or.inr (h.reject rfl (fun _ _ heq => by cases heq) nowProbe)
  | unknown nowProbe hprobing => exact Or.inl (h.snoc rfl nofun nofun)
  | added hchecked => exact Or.inl (h.snoc rfl nofun nofun)
  | turnedAway hchecked => exact Or.inl (h.snoc rfl nofun nofun)
  | learns negentropy cap negCap hadded =>
    exact Or.inl (h.next rfl h.stage (fun heq => by cases hadded.symm.trans heq)
      ⟨rfl, rfl, rfl, rfl, Or.inl rfl⟩ (Or.inl rfl))
  | succeeds seen new now hadded =>
    refine Or.inr ⟨⟨_, List.mem_append_right _ (List.mem_singleton_self _), rfl⟩, Or.inl rfl, ?_⟩
    refine .done ?_ (h.no_fail fun _ _ => nofun)
    rw [recordDone_eq, ScrapeState.putRelay_dayDone, ScrapeState.putDay_dayDone, ← h.url,
      ← h.date, if_pos rfl]
    exact decide_eq_true (le_refl _)
  | fails now now' hadded =>
    have hmem : UnitAct.fail now now' ∈ pre ++ [UnitAct.fail now now'] :=
      List.mem_append_right _ (List.mem_singleton_self _)
    refine Or.inr ⟨⟨_, hmem, rfl⟩, Or.inl rfl, ?_⟩
    refine .failed s.2.day.info now now' ?_ h.carried h.days hmem ?_
    · rw [← h.url]
      exact Function.update_self ..
    · intro t t' hin
      rcases List.mem_append.mp hin with hpre | hlast
      · cases h.acts _ hpre
      · cases List.mem_singleton.mp hlast
        exact ⟨rfl, rfl⟩
  | removed hrec => exact absurd hrec h.stage
  | backstop hlive => exact Or.inl (h.snoc rfl nofun nofun)

/-- A unit on its own, from its start on. -/
theorem unit_standing {as : List UnitAct} {s : ScrapeState × ScrapeUnit}
    (hrun : run (unitStep cfg) (st, ⟨day, .begun⟩) as = some s) :
    Unwritten st day as s ∨ Written cfg st day as s := by
  have hstart : Unwritten st day [] (st, ⟨day, .begun⟩) :=
    { acts := fun a ha => absurd ha List.not_mem_nil
      stage := fun heq => by cases heq
      url := rfl
      date := rfl
      days := rfl
      carried := SameStanding.refl _
      stored := fun hin => ⟨_, hin, SameStanding.refl _⟩
      fresh := fun _ => rfl }
  refine @run_history_invariant _ _ (unitStep cfg)
    (fun pre s => Unwritten st day pre s ∨ Written cfg st day pre s) ?_ _ _ [] _ (Or.inl hstart)
    hrun
  intro pre s a s' h hstep
  rcases h with hun | hwr
  · exact hun.step hstep
  · exact Or.inr (hwr.step hstep)

/-- An outcome that is no failure, or a failure that lasts, settles the relay-day. -/
theorem Recorded.settled {pre : List UnitAct} {st' : ScrapeState} {t : ℕ}
    (h : Recorded cfg st day pre st')
    (hlasts : ∀ now now', UnitAct.fail now now' ∈ pre →
      day.info.failureLasts cfg now now' t = true) : Settled st' day t := by
  cases h with
  | rejected info hinfo hnip hfail =>
    refine Or.inr ⟨info, hinfo, ?_⟩
    rw [RelayInfo.refused, hnip, Bool.or_eq_true]
    exact Or.inr (decide_eq_true rfl)
  | done hdone hfail => exact Or.inl hdone
  | failed info now now' hinfo hsame hdays hfail hone =>
    refine Or.inr ⟨_, hinfo, ?_⟩
    rw [refused_failed, hsame.failureLasts, hlasts now now' hfail, Bool.true_or]

/-- A relay-day that was drawn and is settled, though a failure was recorded: the failure lasts. -/
theorem Recorded.lasts {pre : List UnitAct} {st' : ScrapeState} {now₀ t : ℕ}
    (h : Recorded cfg st day pre st') (hdrawn : DrawnAt st day now₀) (hset : Settled st' day t)
    {now now' : ℕ} (hfail : UnitAct.fail now now' ∈ pre) :
    day.info.failureLasts cfg now now' t = true := by
  cases h with
  | rejected info hinfo hnip hnone => exact absurd hfail (hnone now now')
  | done hdone hnone => exact absurd hfail (hnone now now')
  | failed info t₁ t₂ hinfo hsame hdays hmem hone =>
    obtain ⟨rfl, rfl⟩ := hone now now' hfail
    have hopen : st'.dayDone day.date day.url = false := by
      rw [ScrapeState.dayDone, hdays]
      exact hdrawn.isOpen
    rcases hset with hdone | ⟨info', hinfo', hrefused⟩
    · rw [hopen] at hdone
      cases hdone
    · rw [hinfo] at hinfo'
      cases hinfo'
      have hnip : info.nip11 ≠ some false := by
        have hbefore := hdrawn.drawable
        rw [RelayInfo.refused, Bool.or_eq_false_iff, decide_eq_false_iff_not] at hbefore
        rcases hsame.nip11 with heq | htrue
        · rw [heq]
          exact hbefore.2
        · rw [htrue]
          exact fun hcontra => by cases hcontra
      rwa [refused_failed, hsame.failureLasts, decide_eq_false hnip, Bool.or_false] at hrefused

/-- What a unit that wrote no outcome leaves, of a relay-day that was drawn. -/
theorem Unwritten.not_settled {pre : List UnitAct} {s : ScrapeState × ScrapeUnit} {now₀ t : ℕ}
    (h : Unwritten st day pre s) (hdrawn : DrawnAt st day now₀) (hle : now₀ ≤ t) :
    ¬ Settled s.1 day t := by
  intro hset
  rcases hset with hdone | ⟨info, hinfo, hrefused⟩
  · have hopen : s.1.dayDone day.date day.url = false := by
      rw [ScrapeState.dayDone, h.days]
      exact hdrawn.isOpen
    rw [hopen] at hdone
    cases hdone
  · obtain ⟨info', hinfo', hsame⟩ := h.stored hdrawn.stored
    rw [hinfo] at hinfo'
    cases hinfo'
    rw [hsame.refused_later hle hdrawn.drawable] at hrefused
    cases hrefused

end unit

/-! ## The planner and the relay-day -/

theorem walkFrom_notDone {cfg : ScrapeConfig} {st : ScrapeState} {call : PlanCall}
    {url : List Char} {pos : Option BlockPos} {d : List Char × ℕ × ℕ}
    (h : (walkFrom cfg st call url pos).2 = some d) : st.dayDone d.1 url = false := by
  unfold walkFrom at h
  split at h
  · cases h
  case h_2 k hk =>
    obtain ⟨j, -, -, ⟨e, he, hwalk⟩ | ⟨-, hwalk⟩⟩ :=
      walkBlocks_spec (dayStart call.now) cfg.minDate (openDays cfg st call url) (call.draw url) k
    · rw [hwalk] at h
      cases h
      unfold openDays at he
      obtain ⟨off, -, hoff⟩ := List.mem_filterMap.mp he
      dsimp only at hoff
      split at hoff
      · cases hoff
      · split at hoff
        · cases hoff
        case isFalse hnot =>
          cases hoff
          exact Bool.eq_false_iff.mpr hnot
    · rw [hwalk] at h
      cases h

/-- A settled relay-day is not drawn. -/
theorem Settled.not_drawn {cfg : ScrapeConfig} {p : Pass} {call : PlanCall} {day : RelayDay}
    (h : Settled p.state day call.now)
    (hread : ∀ t ∈ call.targets, p.state.relays t.1 = some t.2) :
    ∀ e ∈ (planBatch cfg p call).out, ¬ (e.url = day.url ∧ e.date = day.date) := by
  rintro e he ⟨hurl, hdate⟩
  have hplanned := planned_planBatch cfg p call
  obtain ⟨d, hlooked, hwalk, hd, -, -⟩ := hplanned.mem_out he
  obtain ⟨hskip, i, -, hi⟩ := hplanned.looked _ hlooked
  rcases h with hdone | ⟨info, hinfo, hrefused⟩
  · have hopen := walkFrom_notDone hwalk
    rw [← hd, hdate, hurl, hdone] at hopen
    cases hopen
  · have hstored := hread _ (List.mem_of_getElem? hi)
    rw [hurl, hinfo] at hstored
    cases hstored
    rw [skips_eq, hrefused] at hskip
    cases hskip

/-! ## What a finished unit leaves -/

/-- **What a unit leaves behind.** A unit that has written an outcome has settled its relay-day, for
as long as a failure lasts that it recorded. A relay-day that was drawn is settled in no other way:
when the unit ends, it can be drawn again. -/
theorem unit_settles_iff {cfg : ScrapeConfig} {st st' : ScrapeState} {day : RelayDay}
    {as : List UnitAct} {u : ScrapeUnit} {now₀ t : ℕ} (hle : now₀ ≤ t)
    (hrun : run (unitStep cfg) (st, ⟨day, .begun⟩) as = some (st', u)) :
    (HasRecorded cfg day as t → Settled st' day t) ∧
      (DrawnAt st day now₀ → (Settled st' day t ↔ HasRecorded cfg day as t)) := by
  rcases unit_standing hrun with hun | hwr
  · have hno : ¬ HasRecorded cfg day as t := by
      rintro ⟨⟨a, ha, hset⟩, -⟩
      rw [hun.acts a ha] at hset
      cases hset
    exact ⟨fun hrec => absurd hrec hno,
      fun hdrawn => iff_of_false (hun.not_settled hdrawn hle) hno⟩
  · have henough : HasRecorded cfg day as t → Settled st' day t :=
      fun hrec => hwr.store.settled hrec.2
    exact ⟨henough, fun hdrawn => ⟨fun hset =>
      ⟨hwr.acts, fun _ _ hfail => hwr.store.lasts hdrawn hset hfail⟩, henough⟩⟩

/-- A relay that was pinned without its scheme, and one day of it. -/
def bareDay : RelayDay where
  url := "r.example".toList
  info := {}
  date := "2023-11-15".toList
  start := someDay
  stop := someDay + 86400

/-- The table it is pinned in. -/
def bareState : ScrapeState := blankState.putRelay bareDay.url bareDay.info

/-- It has no document, and the pool takes no such URL. -/
def turnedAway : List UnitAct := [.begin (someDay + 90000), .answer none, .add false]

/-- With its scheme the relay could be dialled, and might not answer. -/
def unanswered : List UnitAct :=
  [.begin (someDay + 90000), .answer none, .add true, .fail (someDay + 90015) (someDay + 90015),
    .removed]

theorem unanswered_settles :
    ∃ s, run (unitStep someConfig) (bareState, ⟨bareDay, .begun⟩) unanswered = some s ∧
      s.2.stage = .over ∧ DrawnAt bareState bareDay (someDay + 90000) ∧
      Settled s.1 bareDay (someDay + 90016) := by
  have hdrawn : DrawnAt bareState bareDay (someDay + 90000) := ⟨by decide, by decide, by decide⟩
  have hiff := @unit_settles_iff someConfig bareState _ bareDay unanswered _ (someDay + 90000)
    (someDay + 90016) (by decide) rfl
  refine ⟨_, rfl, rfl, hdrawn,
    (hiff.2 hdrawn).mpr ⟨⟨.fail (someDay + 90015) (someDay + 90015), ?_, rfl⟩, ?_⟩⟩
  · decide
  · intro now now' hin
    simp only [unanswered, List.mem_cons, List.not_mem_nil, reduceCtorEq, UnitAct.fail.injEq,
      false_or, or_false] at hin
    obtain ⟨rfl, rfl⟩ := hin
    decide

/-- The unit has ended, its relay-day is open and its relay is not refused. -/
theorem turned_away_settles_nothing :
    DrawnAt bareState bareDay (someDay + 90000) ∧
      run (unitStep someConfig) (bareState, ⟨bareDay, .begun⟩) turnedAway =
        some (bareState, ⟨bareDay, .over⟩) ∧
      ¬ Settled bareState bareDay (someDay + 90000) := by
  refine ⟨⟨by decide, by decide, by decide⟩, rfl, ?_⟩
  rintro (hdone | ⟨info, hinfo, hrefused⟩)
  · revert hdone
    decide
  · cases hinfo
    revert hrefused
    decide

end NostrSearch.Indexer
