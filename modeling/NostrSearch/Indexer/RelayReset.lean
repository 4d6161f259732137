import NostrSearch.Indexer.SetAside

/-!
# A reset and the copies of a record

`reset_relay` clears what was learned of a relay. A unit carries the copy of the record that was in
the table when it was planned, for as long as it takes, and writes it back as a whole; so does the
release at the start of a pass, and so does discovery. A copy from before the reset brings back what
the reset has cleared (`stale_copy_comes_back`).

`Lineage` is history: how often each relay has been reset, and for everything that is known of it, in
the store and in the copies, how often it had been reset when that was learned. The store never
holds anything from before the last reset exactly as long as no copy is written back that does
(`reset_holds_iff`).
-/

namespace NostrSearch.Indexer

open NostrSearch.Core NostrSearch.Lib

/-! ## What is learned of a relay -/

inductive Trait
  | failures
  | lastOk
  | birthday
  | cap
  | negCap
  | negentropy
  | nip11
deriving DecidableEq

/-- One trait of the record. -/
def RelayInfo.only (info : RelayInfo) : Trait → RelayInfo
  | .failures => { fails := info.fails, lastFail := info.lastFail }
  | .lastOk => { lastOk := info.lastOk }
  | .birthday => { birthday := info.birthday }
  | .cap => { cap := info.cap }
  | .negCap => { negCap := info.negCap }
  | .negentropy => { negentropy := info.negentropy }
  | .nip11 => { nip11 := info.nip11, nip11At := info.nip11At }

/-- The trait is not what it is by default. -/
def RelayInfo.knows (info : RelayInfo) (k : Trait) : Bool := decide (info.only k ≠ {})

theorem knows_fresh (sources : ℕ) (k : Trait) :
    ({ sources := sources } : RelayInfo).knows k = false := by
  cases k <;> exact decide_eq_false fun h => h rfl

/-- The unit writes its record. -/
def UnitAct.writes (u : ScrapeUnit) : UnitAct → Bool
  | .begin _ => decide (u.day.info.nip11 = none ∧ looksLikeGeneratedPath u.day.url = true)
  | .answer (some _) => true
  | .succeed _ _ _ => true
  | .fail _ _ => true
  | _ => false

/-- The trait is learned anew, or cleared. A failure goes on counting from the failures of the copy,
and a day moves the birthday only back. -/
def UnitAct.renews (u : ScrapeUnit) : UnitAct → Trait → Bool
  | .begin _, .nip11 =>
    decide (u.day.info.nip11 = none ∧ looksLikeGeneratedPath u.day.url = true)
  | .answer (some _), .nip11 => true
  | .learn negentropy _ _, .negentropy => decide (negentropy ≠ u.day.info.negentropy)
  | .learn _ cap _, .cap => decide (cap ≠ u.day.info.cap)
  | .learn _ _ negCap, .negCap => decide (negCap ≠ u.day.info.negCap)
  | .succeed _ _ _, .failures => true
  | .succeed _ _ _, .lastOk => true
  | .succeed seen _ _, .birthday =>
    decide (0 < seen) && u.day.info.birthday.all fun b => decide (u.day.start ≤ b)
  | .fail _ _, .failures => !u.day.info.knows .failures
  | _, _ => false

/-- A success takes no birthday back. -/
theorem succeeded_kept {info : RelayInfo} {start seen now : ℕ} {k : Trait}
    (hfailures : k ≠ .failures) (hlast : k ≠ .lastOk)
    (hbirthday : k = .birthday →
      (decide (0 < seen) && info.birthday.all fun b => decide (start ≤ b)) = false) :
    (info.succeeded start seen now).knows k = info.knows k := by
  unfold RelayInfo.succeeded
  dsimp only
  split
  case isFalse => cases k <;> first | rfl | contradiction
  case isTrue hseen =>
    cases k with
    | failures => exact absurd rfl hfailures
    | lastOk => exact absurd rfl hlast
    | birthday =>
      have hlater := hbirthday rfl
      rw [decide_eq_true hseen, Bool.true_and] at hlater
      cases hb : info.birthday with
      | none =>
        rw [hb] at hlater
        cases hlater
      | some b =>
        rw [hb, Option.all_some, decide_eq_false_iff_not] at hlater
        have hmin : min b start = b := by omega
        simp only [RelayInfo.knows, RelayInfo.only, hb, Option.elim_some, hmin]
    | _ => rfl

/-- A failure is known of afterwards. -/
theorem failed_kept {cfg : ScrapeConfig} {info : RelayInfo} {now now' : ℕ} {k : Trait}
    (hk : k = .failures → info.knows .failures = true) :
    (info.failed cfg now now').knows k = info.knows k := by
  unfold RelayInfo.failed
  dsimp only
  cases k with
  | failures =>
    rw [hk rfl]
    have hne : min (info.fails + 1) U32_MAX ≠ 0 := by
      unfold U32_MAX
      omega
    split
    all_goals
      refine decide_eq_true fun heq => hne ?_
      exact congrArg RelayInfo.fails heq
  | _ => split <;> rfl

/-- What a unit does not renew is as it was. -/
theorem unitStep_kept {cfg : ScrapeConfig} {st st' : ScrapeState} {u u' : ScrapeUnit} {a : UnitAct}
    (hstep : unitStep cfg (st, u) a = some (st', u')) {k : Trait} (hk : a.renews u k = false) :
    u'.day.info.knows k = u.day.info.knows k := by
  cases unitMove_of_step hstep with
  | generated nowProbe hstage hnip hpath =>
    cases k with
    | nip11 => exact absurd ⟨hnip, hpath⟩ (of_decide_eq_false hk)
    | _ => rfl
  | verified nowProbe hstage =>
    cases k with
    | nip11 => cases hk
    | _ => rfl
  | condemned nowProbe hstage =>
    cases k with
    | nip11 => cases hk
    | _ => rfl
  | learns negentropy cap negCap hstage =>
    cases k with
    | negentropy =>
      have heq := not_not.mp (of_decide_eq_false hk)
      rw [RelayInfo.knows, RelayInfo.knows, RelayInfo.only, RelayInfo.only, heq]
    | cap =>
      have heq := not_not.mp (of_decide_eq_false hk)
      rw [RelayInfo.knows, RelayInfo.knows, RelayInfo.only, RelayInfo.only, heq]
    | negCap =>
      have heq := not_not.mp (of_decide_eq_false hk)
      rw [RelayInfo.knows, RelayInfo.knows, RelayInfo.only, RelayInfo.only, heq]
    | _ => rfl
  | succeeds seen new now hstage =>
    refine succeeded_kept (fun heq => ?_) (fun heq => ?_) fun heq => ?_
    · rw [heq] at hk
      cases hk
    · rw [heq] at hk
      cases hk
    · rw [heq] at hk
      exact hk
  | fails now now' hstage =>
    refine failed_kept fun heq => ?_
    rw [heq] at hk
    exact (Bool.not_eq_eq_eq_not.mp hk).trans rfl
  | _ => rfl

/-- What a unit does to the table. -/
theorem unitStep_relays {cfg : ScrapeConfig} {st st' : ScrapeState} {u u' : ScrapeUnit}
    {a : UnitAct} (hstep : unitStep cfg (st, u) a = some (st', u')) :
    st'.relays =
      if a.writes u then Function.update st.relays u.day.url (some u'.day.info) else st.relays := by
  cases unitMove_of_step hstep with
  | generated nowProbe hstage hnip hpath =>
    rw [UnitAct.writes, decide_eq_true ⟨hnip, hpath⟩, if_pos rfl]
    rfl
  | asks nowProbe hstage hgen hdue =>
    rw [UnitAct.writes, decide_eq_false hgen, if_neg Bool.false_ne_true]
  | trusts nowProbe hstage hgen hdue =>
    rw [UnitAct.writes, decide_eq_false hgen, if_neg Bool.false_ne_true]
  | _ => rfl

/-! ## When it was learned -/

/-- For each trait that is known, how often its relay had been reset when it was learned. -/
abbrev Origin := Trait → Option ℕ

/-- The origin of `info`, which came from a record with the origin `o`. -/
def Origin.after (o : Origin) (info : RelayInfo) (renews : Trait → Bool) (resets : ℕ) : Origin :=
  fun k => if info.knows k then if renews k then some resets else o k else none

/-- The origins of the records in the store, of those the planning task has read, and of the copies
of the units. -/
structure Lineage where
  resets : List Char → ℕ
  stored : List Char → Origin
  read : List Char → Origin
  held : List Char → Origin

/-- What a step adds to the history. -/
def Lineage.note (h : Lineage) (s : Scraper) (a : ScraperAct) (s' : Scraper) : Lineage :=
  match a with
  | .discover _ => { h with read := h.stored }
  | .begin => { h with read := h.stored }
  | .relays => { h with read := h.stored }
  | .write =>
    match s.stage with
    | .writing (t :: _) _ =>
      { h with stored := Function.update h.stored t.1 ((h.read t.1).after t.2 (fun _ => false) 0) }
    | _ => h
  | .spawn =>
    match s.stage with
    | .inserted day _ => { h with held := Function.update h.held day.url (h.read day.url) }
    | _ => h
  | .unit i a =>
    match s.units[i]?, s'.units[i]? with
    | some u, some u' =>
      let url := u.day.url
      let o := (h.held url).after u'.day.info (a.renews u) (h.resets url)
      { h with
        held := Function.update h.held url o
        stored := if a.writes u then Function.update h.stored url o else h.stored }
    | _, _ => h
  | .reset url =>
    { h with
      resets := Function.update h.resets url (h.resets url + 1)
      stored := Function.update h.stored url fun _ => none }
  | _ => h

/-- What the store knows at first was learned before any reset. -/
def Lineage.start : Lineage where
  resets := fun _ => 0
  stored := fun _ _ => some 0
  read := fun _ _ => none
  held := fun _ _ => none

/-- What the store knows of a relay was learned since its last reset. -/
def LearnedSince (r : Lineage × Scraper) : Prop :=
  ∀ url info k, r.2.state.relays url = some info → info.knows k = true →
    ∃ e, r.1.stored url k = some e ∧ r.1.resets url ≤ e

/-- A copy that is written back holds, of what is not renewed, nothing from before the last reset. -/
def WritesFresh (r : Lineage × Scraper) : ScraperAct → Prop
  | .unit i a => ∀ u, r.2.units[i]? = some u → a.writes u = true → ∀ k, a.renews u k = false →
      u.day.info.knows k = true → ∀ e, r.1.held u.day.url k = some e → r.1.resets u.day.url ≤ e
  | .write => ∀ t todo inPass, r.2.stage = .writing (t :: todo) inPass → ∀ k, t.2.knows k = true →
      ∀ e, r.1.read t.1 k = some e → r.1.resets t.1 ≤ e
  | _ => True

/-- The copies that are drawn. -/
def ScraperStage.drawn : ScraperStage → RelayTable
  | .planning _ _ out cur _ => out.map (fun d => (d.url, d.info)) ++ cur.toList
  | .drain batch => batch.map fun d => (d.url, d.info)
  | .granted day batch => (day.url, day.info) :: batch.map fun d => (d.url, d.info)
  | .inserted day batch => (day.url, day.info) :: batch.map fun d => (d.url, d.info)
  | _ => []

/-- What is known has an origin. -/
def Known (o : List Char → Origin) (t : List Char × RelayInfo) : Prop :=
  ∀ k, t.2.knows k = true → ∃ e, o t.1 k = some e

/-- The store knows nothing old, and the history knows where the copies come from. -/
structure Traced (cfg : ScrapeConfig) (r : Lineage × Scraper) : Prop where
  tied : Tied cfg r.2
  stored : LearnedSince r
  holds : ∀ t ∈ r.2.stage.holds, Known r.1.read t
  drawn : ∀ t ∈ r.2.stage.drawn, Known r.1.read t
  held : ∀ u ∈ r.2.units, Known r.1.held (u.day.url, u.day.info)

section traced

variable {cfg : ScrapeConfig} {r : Lineage × Scraper} {s' : Scraper}

/-- A record that is read now. -/
theorem LearnedSince.known (h : LearnedSince r) {t : List Char × RelayInfo}
    (ht : r.2.state.relays t.1 = some t.2) : Known r.1.stored t := by
  intro k hk
  obtain ⟨e, he, -⟩ := h t.1 t.2 k ht hk
  exact ⟨e, he⟩

theorem known_discovered (h : LearnedSince r) (found : List (List Char × ℕ)) :
    ∀ t ∈ discovered r.2.state.relays found, Known r.1.stored t := by
  intro t ht
  obtain ⟨f, -, rfl⟩ := List.mem_map.mp ht
  cases hf : r.2.state.relays f.1 with
  | none =>
    intro k hk
    cases hk.symm.trans (knows_fresh f.2 k)
  | some info =>
    intro k hk
    refine @LearnedSince.known r h (f.1, info) hf k ?_
    cases k <;> exact hk

theorem known_released (h : LearnedSince r) : ∀ t ∈ released r.2.table, Known r.1.stored t := by
  intro t ht
  obtain ⟨t', ht', rfl⟩ := List.mem_map.mp ht
  have hknown := h.known (mem_table (List.mem_filter.mp ht').1)
  intro k hk
  refine hknown k ?_
  cases k with
  | failures =>
    refine decide_eq_true fun heq => of_decide_eq_true hk ?_
    have hlast : t'.2.lastFail = 0 := congrArg RelayInfo.lastFail heq
    dsimp only [RelayInfo.only]
    rw [hlast]
  | _ => exact hk

/-- A step that leaves the store alone and makes no new copies. -/
theorem Traced.keep (h : Traced cfg r) (htied : Tied cfg s')
    (hstate : s'.state = r.2.state) (hholds : ∀ t ∈ s'.stage.holds, t ∈ r.2.stage.holds)
    (hdrawn : ∀ t ∈ s'.stage.drawn, t ∈ r.2.stage.holds ∨ t ∈ r.2.stage.drawn)
    (hunits : ∀ u ∈ s'.units, u ∈ r.2.units) : Traced cfg (r.1, s') where
  tied := htied
  stored := by
    intro url info k hinfo hk
    refine h.stored url info k ?_ hk
    rw [← hstate]
    exact hinfo
  holds := fun t ht => h.holds t (hholds t ht)
  drawn := fun t ht => (hdrawn t ht).elim (h.holds t) (h.drawn t)
  held := fun u hu => h.held u (hunits u hu)

/-- The table is read. -/
theorem Traced.reads (h : Traced cfg r) (htied : Tied cfg s') (hstate : s'.state = r.2.state)
    (hholds : ∀ t ∈ s'.stage.holds, Known r.1.stored t) (hdrawn : s'.stage.drawn = [])
    (hunits : s'.units = r.2.units) : Traced cfg ({ r.1 with read := r.1.stored }, s') where
  tied := htied
  stored := by
    intro url info k hinfo hk
    refine h.stored url info k ?_ hk
    rw [← hstate]
    exact hinfo
  holds := hholds
  drawn := by
    rw [hdrawn]
    exact fun t ht => absurd ht List.not_mem_nil
  held := by
    rw [hunits]
    exact h.held

/-- A record is written whose origins are known and new enough. -/
theorem learnedSince_write (h : LearnedSince r) {url : List Char} {info : RelayInfo} {o : Origin}
    (ho : ∀ k, info.knows k = true → ∃ e, o k = some e ∧ r.1.resets url ≤ e)
    {l : Lineage} (hresets : l.resets = r.1.resets)
    (hstored : l.stored = Function.update r.1.stored url o)
    (hrelays : s'.state.relays = Function.update r.2.state.relays url (some info)) :
    LearnedSince (l, s') := by
  intro u info' k hinfo hk
  dsimp only at hinfo ⊢
  rw [hrelays] at hinfo
  rw [hresets, hstored]
  by_cases hu : u = url
  · subst hu
    rw [Function.update_self] at hinfo ⊢
    cases hinfo
    exact ho k hk
  · rw [Function.update_of_ne hu] at hinfo ⊢
    exact h u info' k hinfo hk

theorem Traced.write (h : Traced cfg r) {t : List Char × RelayInfo} {todo : RelayTable}
    {inPass : Bool} (hstage : r.2.stage = .writing (t :: todo) inPass)
    (hok : WritesFresh r .write)
    (htied : Tied cfg { r.2.put t.1 t.2 with stage := .writing todo inPass }) :
    Traced cfg
      ({ r.1 with
          stored := Function.update r.1.stored t.1 ((r.1.read t.1).after t.2 (fun _ => false) 0) },
        { r.2.put t.1 t.2 with stage := .writing todo inPass }) := by
  have hholds := h.holds
  rw [hstage] at hholds
  refine ⟨htied, ?_, fun t' ht' => hholds t' (List.mem_cons_of_mem _ ht'), nofun, h.held⟩
  refine learnedSince_write h.stored (fun k hk => ?_) rfl rfl rfl
  obtain ⟨e, he⟩ := hholds t List.mem_cons_self k hk
  refine ⟨e, ?_, hok t todo inPass hstage k hk e he⟩
  rw [Origin.after, hk, if_pos rfl, if_neg Bool.false_ne_true, he]

theorem Traced.spawn (h : Traced cfg r) {day : RelayDay} {batch : List RelayDay}
    (hstage : r.2.stage = .inserted day batch)
    (htied : Tied cfg
      { r.2 with units := r.2.units ++ [⟨day, .begun⟩], stage := .drain batch }) :
    Traced cfg
      ({ r.1 with held := Function.update r.1.held day.url (r.1.read day.url) },
        { r.2 with units := r.2.units ++ [⟨day, .begun⟩], stage := .drain batch }) := by
  have hdrawn := h.drawn
  have hapart := h.tied.apart
  rw [hstage] at hdrawn hapart
  refine ⟨htied, h.stored, nofun, fun t ht => hdrawn t (List.mem_cons_of_mem _ ht), ?_⟩
  intro u hu
  rcases List.mem_append.mp hu with hold | hnew
  · -- no unit of the relay runs yet
    have hne : u.day.url ≠ day.url := by
      rw [List.append_assoc] at hapart
      exact (List.nodup_append.mp hapart).2.2 _ (List.mem_map_of_mem hold) _ List.mem_cons_self
    intro k hk
    dsimp only
    rw [Function.update_of_ne hne]
    exact h.held u hold k hk
  · rw [List.mem_singleton.mp hnew]
    intro k hk
    dsimp only
    rw [Function.update_self]
    exact hdrawn _ List.mem_cons_self k hk

/-- What a unit's stretch adds to the history. -/
theorem note_unit {i : ℕ} {a : UnitAct} {u u' : ScrapeUnit} (hu : r.2.units[i]? = some u)
    (hunits : s'.units = r.2.units.set i u') :
    r.1.note r.2 (.unit i a) s' =
      { r.1 with
        held := Function.update r.1.held u.day.url
          ((r.1.held u.day.url).after u'.day.info (a.renews u) (r.1.resets u.day.url))
        stored := if a.writes u then Function.update r.1.stored u.day.url
          ((r.1.held u.day.url).after u'.day.info (a.renews u) (r.1.resets u.day.url))
          else r.1.stored } := by
  have hu' : s'.units[i]? = some u' := by
    rw [hunits, List.getElem?_set_self (List.getElem?_eq_some_iff.mp hu).1]
  rw [Lineage.note, hu, hu']

theorem Traced.unit (h : Traced cfg r) {i : ℕ} {a : UnitAct} {u u' : ScrapeUnit}
    {st' : ScrapeState} (hu : r.2.units[i]? = some u)
    (hunit : unitStep cfg (r.2.state, u) a = some (st', u')) (hok : WritesFresh r (.unit i a))
    (htied : Tied cfg s') (hstate : s'.state = st') (hunits : s'.units = r.2.units.set i u')
    (hstage : s'.stage = r.2.stage) : Traced cfg (r.1.note r.2 (.unit i a) s', s') := by
  have hkey := (unitStep_key hunit).1
  have hmem : u ∈ r.2.units := List.mem_of_getElem? hu
  have hrelays := unitStep_relays hunit
  have horigin : ∀ k, u'.day.info.knows k = true → ∃ e,
      (r.1.held u.day.url).after u'.day.info (a.renews u) (r.1.resets u.day.url) k = some e ∧
        (a.writes u = true → r.1.resets u.day.url ≤ e) := by
    intro k hk
    rw [Origin.after, if_pos hk]
    cases hrenews : a.renews u k with
    | true => exact ⟨_, rfl, fun _ => le_refl _⟩
    | false =>
      have hknew : u.day.info.knows k = true := by
        rw [← unitStep_kept hunit hrenews]
        exact hk
      obtain ⟨e, he⟩ := h.held u hmem k hknew
      rw [if_neg Bool.false_ne_true]
      exact ⟨e, he, fun hwrites => hok u hu hwrites k hrenews hknew e he⟩
  rw [note_unit hu hunits]
  refine ⟨htied, ?_, ?_, ?_, ?_⟩
  · cases hwrites : a.writes u with
    | true =>
      rw [hwrites, if_pos rfl] at hrelays
      refine @learnedSince_write r s' h.stored u.day.url u'.day.info
        ((r.1.held u.day.url).after u'.day.info (a.renews u) (r.1.resets u.day.url))
        (fun k hk => ?_) _ rfl ?_ ?_
      · obtain ⟨e, he, hle⟩ := horigin k hk
        exact ⟨e, he, hle hwrites⟩
      · rw [if_pos rfl]
      · rw [hstate]
        exact hrelays
    | false =>
      rw [hwrites, if_neg Bool.false_ne_true] at hrelays
      intro url info k hinfo hk
      dsimp only at hinfo ⊢
      rw [if_neg Bool.false_ne_true]
      rw [hstate, hrelays] at hinfo
      exact h.stored url info k hinfo hk
  · dsimp only
    rw [hstage]
    exact h.holds
  · dsimp only
    rw [hstage]
    exact h.drawn
  · dsimp only
    rw [hunits]
    intro v hv k hk
    rcases mem_set_cases hv with rfl | ⟨j, hij, hj⟩
    · obtain ⟨e, he, -⟩ := horigin k hk
      dsimp only
      rw [hkey, Function.update_self]
      exact ⟨e, he⟩
    · dsimp only
      rw [Function.update_of_ne (h.tied.url_ne hu hj hij)]
      exact h.held v (List.mem_of_getElem? hj) k hk

theorem Traced.reset (h : Traced cfg r) {url : List Char} {old : RelayInfo}
    (htied : Tied cfg { r.2 with state := r.2.state.putRelay url { sources := old.sources } }) :
    Traced cfg
      ({ r.1 with
          resets := Function.update r.1.resets url (r.1.resets url + 1)
          stored := Function.update r.1.stored url fun _ => none },
        { r.2 with state := r.2.state.putRelay url { sources := old.sources } }) := by
  refine ⟨htied, ?_, h.holds, h.drawn, h.held⟩
  intro u info k hinfo hk
  dsimp only [ScrapeState.putRelay] at hinfo ⊢
  by_cases hu : u = url
  · subst hu
    rw [Function.update_self] at hinfo
    cases hinfo
    rw [knows_fresh] at hk
    cases hk
  · rw [Function.update_of_ne hu] at hinfo
    rw [Function.update_of_ne hu, Function.update_of_ne hu]
    exact h.stored u info k hinfo hk

theorem Traced.pin (h : Traced cfg r) {url : List Char} (htied : Tied cfg (r.2.put url {})) :
    Traced cfg (r.1, r.2.put url {}) := by
  refine ⟨htied, ?_, h.holds, h.drawn, h.held⟩
  intro u info k hinfo hk
  dsimp only [Scraper.put, ScrapeState.putRelay] at hinfo ⊢
  by_cases hu : u = url
  · subst hu
    rw [Function.update_self] at hinfo
    cases hinfo
    rw [show ({} : RelayInfo).knows k = false from knows_fresh 0 k] at hk
    cases hk
  · rw [Function.update_of_ne hu] at hinfo
    exact h.stored u info k hinfo hk

/-- **One step.** -/
theorem Traced.step (h : Traced cfg r) {a : ScraperAct} (hok : WritesFresh r a)
    (hstep : scraperStep cfg r.2 a = some s') : Traced cfg (r.1.note r.2 a s', s') := by
  have htied := tied_step h.tied hstep
  have hcopies := h.holds
  have hdrawn := h.drawn
  rcases moves_of_step hstep with hmove | hmove
  · cases hmove with
    | discover found hstage =>
      exact h.reads htied rfl (known_discovered h.stored found) rfl rfl
    | begin hstage => exact h.reads htied rfl (known_released h.stored) rfl rfl
    | relays hstage =>
      refine h.reads htied rfl (fun t ht => h.stored.known (mem_table ?_)) rfl rfl
      exact (mem_retained.mp (mem_retained_of_mem_scrapeTargets ht)).1
    | pinned url hstage => exact h
    | pin url hstage hnew => exact h.pin htied
    | write t todo inPass hstage =>
      -- the copy that is written back is of the time of the stage
      have hwrite := h.write hstage hok htied
      simp only [Lineage.note, hstage]
      exact hwrite
    | written hstage =>
      simp only [Lineage.note, hstage]
      exact h.keep htied rfl nofun nofun fun _ hu => hu
    | spawn day batch hstage =>
      have hspawn := h.spawn hstage htied
      simp only [Lineage.note, hstage]
      exact hspawn
    -- the copies go from the targets to the batch
    | plan call hstage hlimit hclock =>
      refine h.keep htied rfl (fun t ht => ?_) nofun fun _ hu => hu
      rw [hstage]
      obtain ⟨i, -, hi⟩ := List.mem_filterMap.mp ht
      exact List.mem_of_getElem? hi
    | look call idx todo out looked hstage hroom =>
      refine h.keep htied rfl (fun t ht => ?_) (fun t ht => ?_) fun _ hu => hu
      · rw [hstage]
        obtain ⟨i, hi, hti⟩ := List.mem_filterMap.mp ht
        exact List.mem_filterMap.mpr ⟨i, List.mem_cons_of_mem _ hi, hti⟩
      · rw [hstage]
        rcases List.mem_append.mp ht with hout | hcur
        · exact Or.inr (List.mem_append_left _ hout)
        · left
          rw [Option.mem_toList] at hcur
          exact List.mem_filterMap.mpr ⟨idx, List.mem_cons_self, (looks_some hcur).1⟩
    | walk call todo out url info looked hstage =>
      refine h.keep htied rfl (fun t ht => ?_) (fun t ht => Or.inr ?_) fun _ hu => hu
      · rw [hstage]
        exact ht
      · rw [hstage]
        simp only [ScraperStage.drawn, List.map_append, List.mem_append, Option.toList_none,
          List.not_mem_nil, or_false, Option.toList_some, List.mem_singleton] at ht ⊢
        rcases ht with hout | hnew
        · exact Or.inl hout
        · obtain ⟨d, hd, rfl⟩ := List.mem_map.mp hnew
          rw [Option.mem_toList, Option.map_eq_some_iff] at hd
          obtain ⟨day, -, rfl⟩ := hd
          exact Or.inr rfl
    | take call todo day out looked hstage hend =>
      refine h.keep htied rfl nofun (fun t ht => Or.inr ?_) fun _ hu => hu
      rw [hstage]
      exact List.mem_append_left _ ht
    | acquire day batch hstage hpermit | insert day batch hstage =>
      refine h.keep htied rfl nofun (fun t ht => Or.inr ?_) fun _ hu => hu
      rw [hstage]
      exact ht
    | start percentile hstage | again call looked hstage hflight
    | leave now call looked hstage hflight hclock | drained hstage =>
      exact h.keep htied rfl nofun nofun fun _ hu => hu
  · cases hmove with
    | unit i a u u' st' clock hu htick hunit => exact h.unit hu hunit hok htied rfl rfl rfl
    | gone i u hu hover =>
      exact h.keep htied rfl (fun _ ht => ht) (fun _ ht => Or.inr ht) fun _ hv =>
        List.mem_of_mem_eraseIdx hv
    | dropPermit hleaving =>
      exact h.keep htied rfl (fun _ ht => ht) (fun _ ht => Or.inr ht) fun _ hv => hv
    | reset url old hold => exact h.reset htied

end traced

end NostrSearch.Indexer
