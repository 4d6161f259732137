import NostrSearch.Indexer.RunPass

/-!
# One unit for each relay

The in-flight set holds the relays of the running units, and the one relay that is inserted and
whose unit is not spawned yet (`Tied.inFlight`). A batch is drawn while units run and is worked off
while others end; no relay in it is in flight, since a relay is looked up in the set before it is
drawn, and only what is drawn is inserted. Every slot is free, or held by a unit, by the planning
task, or by a task about to end.
-/

namespace NostrSearch.Indexer

open NostrSearch.Core NostrSearch.Lib

/-- The relays of the running units. -/
def Scraper.running (s : Scraper) : List (List Char) := s.units.map fun u => u.day.url

namespace ScraperStage

/-- The relay between insertion and spawn. -/
def entered : ScraperStage → List (List Char)
  | .inserted day _ => [day.url]
  | _ => []

/-- The relays that are drawn, or about to be, and not inserted yet. -/
def waiting : ScraperStage → List (List Char)
  | .planning _ _ out cur _ => out.map RelayDay.url ++ (cur.map Prod.fst).toList
  | .drain batch => batch.map RelayDay.url
  | .granted day batch => day.url :: batch.map RelayDay.url
  | .inserted _ batch => batch.map RelayDay.url
  | _ => []

/-- The permit that the planning task holds. -/
def held : ScraperStage → ℕ
  | .granted _ _ => 1
  | .inserted _ _ => 1
  | _ => 0

/-- No pass is planning. -/
def rests : ScraperStage → Bool
  | .idle => true
  | .writing _ _ => true
  | _ => false

/-- The relays that the call comes to next. -/
def ahead : ScraperStage → List (List Char)
  | .planning call todo _ _ _ => todo.filterMap fun i => (call.targets[i]?).map Prod.fst
  | _ => []

end ScraperStage

/-- What ties the units, the in-flight set, the slots and the batch together. -/
structure Tied (cfg : ScrapeConfig) (s : Scraper) : Prop where
  apart : (s.running ++ s.stage.entered ++ s.stage.waiting).Nodup
  inFlight : ∀ url, url ∈ s.inFlight ↔ url ∈ s.running ++ s.stage.entered
  slots : s.permits + s.units.length + s.leaving + s.stage.held = batchSize cfg
  rests : s.stage.rests = true → s.units = []
  ahead : s.stage.ahead.Nodup
  fresh : ∀ url ∈ s.stage.ahead, url ∉ s.stage.waiting

theorem tied_start (cfg : ScrapeConfig) (st : ScrapeState) (known : List (List Char)) :
    Tied cfg (scraperStart cfg st known) where
  apart := List.nodup_nil
  inFlight := fun url => iff_of_false (Finset.notMem_empty url) List.not_mem_nil
  slots := rfl
  rests := fun _ => rfl
  ahead := List.nodup_nil
  fresh := fun _ h => absurd h List.not_mem_nil

/-- Steps that change neither units nor slots, between stages in which nothing is drawn. -/
theorem Tied.restage {cfg : ScrapeConfig} {s s' : Scraper} (h : Tied cfg s)
    (hunits : s'.units = s.units) (hflight : s'.inFlight = s.inFlight)
    (hpermits : s'.permits = s.permits) (hleaving : s'.leaving = s.leaving)
    (hentered : s'.stage.entered = s.stage.entered) (hheld : s'.stage.held = s.stage.held)
    (hrests : s'.stage.rests = true → s.units = [])
    (hwaiting : s'.stage.waiting = s.stage.waiting)
    (hahead : s'.stage.ahead.Sublist s.stage.ahead) : Tied cfg s' where
  apart := by
    rw [Scraper.running, hunits, hentered, hwaiting]
    exact h.apart
  inFlight := by
    rw [Scraper.running, hunits, hflight, hentered]
    exact h.inFlight
  slots := by
    rw [hunits, hpermits, hleaving, hheld]
    exact h.slots
  rests := by
    rw [hunits]
    exact hrests
  ahead := h.ahead.sublist hahead
  fresh := by
    rw [hwaiting]
    exact fun url hurl => h.fresh url (hahead.mem hurl)

theorem Tied.put {cfg : ScrapeConfig} {s : Scraper} (h : Tied cfg s) (url : List Char)
    (info : RelayInfo) : Tied cfg (s.put url info) :=
  h.restage rfl rfl rfl rfl rfl rfl h.rests rfl (List.Sublist.refl _)

/-! ## The planning task -/

/-- The order comes to each relay of the table once. -/
theorem ahead_order (call : PlanCall) :
    (call.order.filterMap fun i => (call.targets[i]?).map Prod.fst).Perm
      (call.targets.map Prod.fst) := by
  have hrange : ((List.range call.targets.length).filterMap fun i =>
      (call.targets[i]?).map Prod.fst) = call.targets.map Prod.fst := by
    have hsome : ((List.range call.targets.length).map fun i =>
        (call.targets[i]?).map Prod.fst) = (call.targets.map Prod.fst).map some := by
      apply List.ext_getElem
      · simp
      · intro i hi hi'
        simp at hi hi'
        simp [hi]
    have := congrArg (List.filterMap id) hsome
    simpa [List.filterMap_map] using this
  rw [← hrange]
  exact call.shuffled.filterMap _

section plan

variable {cfg : ScrapeConfig} {s : Scraper}

theorem Tied.plan (h : Tied cfg s) {call : PlanCall} (hstage : s.stage = .scope call.targets) :
    Tied cfg { s with clock := call.now, stage := .planning call call.order [] none [] } where
  apart := by
    have hapart := h.apart
    rw [hstage] at hapart
    exact hapart
  inFlight := by
    have hflight := h.inFlight
    rw [hstage] at hflight
    exact hflight
  slots := by
    have hslots := h.slots
    rw [hstage] at hslots
    exact hslots
  rests := nofun
  ahead := (ahead_order call).nodup_iff.mpr call.urls
  fresh := fun _ _ => List.not_mem_nil

/-- What a look finds. -/
theorem looks_some {call : PlanCall} {idx : ℕ} {t : List Char × RelayInfo}
    (h : s.looks call idx = some t) :
    call.targets[idx]? = some t ∧ t.2.refused call.now = false ∧ t.1 ∉ s.inFlight := by
  rw [Scraper.looks, Option.filter_eq_some_iff, Bool.not_eq_true', skips_eq,
    Bool.or_eq_false_iff, decide_eq_false_iff_not] at h
  exact h

/-- A relay that is not passed over is not in flight, and was not drawn before. -/
theorem Tied.look (h : Tied cfg s) {call : PlanCall} {idx : ℕ} {todo : List ℕ}
    {out : List RelayDay} {looked : List (List Char)}
    (hstage : s.stage = .planning call (idx :: todo) out none looked) :
    Tied cfg { s with stage := .planning call todo out (s.looks call idx) looked } := by
  have hsub : (ScraperStage.planning call todo out (s.looks call idx) looked).ahead.Sublist
      s.stage.ahead := by
    rw [hstage]
    exact (List.sublist_cons_self idx todo).filterMap _
  cases hlooks : s.looks call idx with
  | none =>
    rw [hlooks] at hsub
    refine h.restage rfl rfl rfl rfl ?_ ?_ nofun ?_ hsub
    · rw [hstage]
      rfl
    · rw [hstage]
      rfl
    · rw [hstage]
      rfl
  | some t =>
    obtain ⟨htarget, -, hnot⟩ := looks_some hlooks
    have hahead := h.ahead
    have hfresh := h.fresh
    have hapart := h.apart
    have hflight := h.inFlight
    rw [hstage] at hahead hfresh hapart hflight
    have hcons : (ScraperStage.planning call (idx :: todo) out none looked).ahead =
        t.1 :: (ScraperStage.planning call todo out (some t) looked).ahead := by
      simp only [ScraperStage.ahead, List.filterMap_cons, htarget, Option.map_some]
    rw [hcons] at hahead hfresh
    have hout : t.1 ∉ out.map RelayDay.url := by
      have := hfresh t.1 List.mem_cons_self
      simpa [ScraperStage.waiting] using this
    have hrunning : t.1 ∉ s.running := by
      intro hin
      exact hnot ((hflight t.1).mpr (List.mem_append_left _ hin))
    refine ⟨?_, hflight, ?_, nofun, (List.nodup_cons.mp hahead).2, ?_⟩
    · simp only [ScraperStage.entered, ScraperStage.waiting, List.append_nil, Option.map_none,
        Option.toList_none, Option.map_some, Option.toList_some] at hapart ⊢
      rw [← List.append_assoc]
      refine List.Nodup.append hapart (List.nodup_singleton _) ?_
      rw [List.disjoint_singleton]
      simp only [List.mem_append, not_or]
      exact ⟨hrunning, hout⟩
    · have hslots := h.slots
      rw [hstage] at hslots
      exact hslots
    · intro url hurl hwaiting
      simp only [ScraperStage.waiting, List.mem_append, Option.map_some, Option.toList_some,
        List.mem_singleton] at hwaiting
      rcases hwaiting with hin | heq
      · refine hfresh url (List.mem_cons_of_mem _ hurl) ?_
        simp only [ScraperStage.waiting, Option.map_none, Option.toList_none, List.append_nil]
        exact hin
      · rw [heq] at hurl
        exact (List.nodup_cons.mp hahead).1 hurl

/-- The draw takes the place of the relay it is for. -/
theorem Tied.walk (h : Tied cfg s) {call : PlanCall} {todo : List ℕ} {out : List RelayDay}
    {url : List Char} {info : RelayInfo} {looked : List (List Char)}
    (hstage : s.stage = .planning call todo out (some (url, info)) looked)
    {blocks : List Char → Option BlockPos} {drawn : Option (List Char × ℕ × ℕ)}
    {looked' : List (List Char)} :
    Tied cfg
      { s with
        blocks := blocks
        stage := .planning call todo (out ++ (drawn.map (relayDay url info)).toList) none
          looked' } := by
  have hsub : (ScraperStage.planning call todo (out ++ (drawn.map (relayDay url info)).toList)
      none looked').waiting.Sublist s.stage.waiting := by
    rw [hstage]
    simp only [ScraperStage.waiting, List.map_append, Option.map_none, Option.toList_none,
      List.append_nil, Option.map_some, Option.toList_some]
    refine List.Sublist.append_left ?_ _
    cases drawn with
    | none => exact List.nil_sublist _
    | some d => exact List.Sublist.refl _
  have hapart := h.apart
  have hflight := h.inFlight
  have hslots := h.slots
  have hahead := h.ahead
  have hfresh := h.fresh
  rw [hstage] at hflight hslots hahead
  refine ⟨?_, hflight, hslots, nofun, hahead, ?_⟩
  · refine hapart.sublist ?_
    rw [show s.stage.entered = [] by rw [hstage]; rfl]
    exact List.Sublist.append_left hsub _
  · intro u hu hin
    refine hfresh u ?_ (hsub.mem hin)
    rw [hstage]
    exact hu

theorem Tied.acquire (h : Tied cfg s) {day : RelayDay} {batch : List RelayDay}
    (hstage : s.stage = .drain (day :: batch)) (hpermit : 0 < s.permits) :
    Tied cfg { s with permits := s.permits - 1, stage := .granted day batch } := by
  have hapart := h.apart
  have hflight := h.inFlight
  have hslots := h.slots
  rw [hstage] at hapart hflight hslots
  refine ⟨hapart, hflight, ?_, nofun, List.nodup_nil, fun _ hin => absurd hin List.not_mem_nil⟩
  simp only [ScraperStage.held] at hslots ⊢
  omega

theorem Tied.insert (h : Tied cfg s) {day : RelayDay} {batch : List RelayDay}
    (hstage : s.stage = .granted day batch) :
    Tied cfg { s with inFlight := insert day.url s.inFlight, stage := .inserted day batch } := by
  have hapart := h.apart
  have hflight := h.inFlight
  have hslots := h.slots
  rw [hstage] at hapart hflight hslots
  refine ⟨?_, ?_, hslots, nofun, List.nodup_nil, fun _ hin => absurd hin List.not_mem_nil⟩
  · simp only [ScraperStage.entered, ScraperStage.waiting, List.append_nil,
      List.append_assoc, List.singleton_append] at hapart ⊢
    exact hapart
  · intro url
    have hmem := hflight url
    simp only [ScraperStage.entered, List.append_nil] at hmem
    rw [Finset.mem_insert, hmem, ScraperStage.entered, List.mem_append, List.mem_singleton, or_comm]
    exact Iff.rfl

theorem Tied.spawn (h : Tied cfg s) {day : RelayDay} {batch : List RelayDay}
    (hstage : s.stage = .inserted day batch) :
    Tied cfg { s with units := s.units ++ [⟨day, .begun⟩], stage := .drain batch } := by
  have hapart := h.apart
  have hflight := h.inFlight
  have hslots := h.slots
  rw [hstage] at hapart hflight hslots
  have hrunning : ({ s with units := s.units ++ [⟨day, .begun⟩], stage := .drain batch } :
      Scraper).running = s.running ++ [day.url] := by
    rw [Scraper.running, List.map_append]
    rfl
  refine ⟨?_, ?_, ?_, nofun, List.nodup_nil, fun _ hin => absurd hin List.not_mem_nil⟩
  · rw [hrunning]
    simp only [ScraperStage.entered, ScraperStage.waiting, List.append_nil] at hapart ⊢
    exact hapart
  · intro url
    show url ∈ s.inFlight ↔ url ∈ _ ++ []
    rw [hrunning, List.append_nil]
    exact hflight url
  · simp only [ScraperStage.held, List.length_append, List.length_singleton] at hslots ⊢
    omega

/-- A pass begins with no unit left, and with all of its slots. -/
theorem Tied.start (h : Tied cfg s) (hstage : s.stage = .writing [] true) (percentile : ℕ) :
    Tied cfg
      { s with
        stage := .ready
        percentile := percentile
        blocks := fun _ => none
        inFlight := ∅
        permits := batchSize cfg
        leaving := 0 } := by
  have hnone : s.units = [] := h.rests (by rw [hstage]; rfl)
  have hrunning : s.running = [] := by rw [Scraper.running, hnone, List.map_nil]
  refine ⟨?_, ?_, ?_, nofun, List.nodup_nil, fun _ hin => absurd hin List.not_mem_nil⟩
  · show (s.running ++ [] ++ []).Nodup
    rw [hrunning]
    exact List.nodup_nil
  · intro url
    show url ∈ (∅ : Finset (List Char)) ↔ url ∈ s.running ++ []
    rw [hrunning]
    exact iff_of_false (Finset.notMem_empty url) List.not_mem_nil
  · show batchSize cfg + s.units.length + 0 + 0 = batchSize cfg
    rw [hnone]
    rfl

/-- With nothing in flight no unit runs. -/
theorem Tied.units_eq_nil (h : Tied cfg s) (hflight : s.inFlight = ∅) : s.units = [] := by
  rw [List.eq_nil_iff_forall_not_mem]
  intro u hu
  have hin : u.day.url ∈ s.inFlight :=
    (h.inFlight _).mpr (List.mem_append_left _ (List.mem_map_of_mem hu))
  rw [hflight] at hin
  exact Finset.notMem_empty _ hin

/-- A step between stages in which nothing is drawn. -/
theorem Tied.quiet (h : Tied cfg s) {s' : Scraper}
    (hunits : s'.units = s.units) (hflight : s'.inFlight = s.inFlight)
    (hpermits : s'.permits = s.permits) (hleaving : s'.leaving = s.leaving)
    (hentered : s'.stage.entered = s.stage.entered) (hheld : s'.stage.held = s.stage.held)
    (hwaiting : s'.stage.waiting = s.stage.waiting) (hahead : s'.stage.ahead = [])
    (hrests : s'.stage.rests = true → s.stage.rests = true ∨ s.inFlight = ∅) : Tied cfg s' := by
  refine h.restage hunits hflight hpermits hleaving hentered hheld (fun hr => ?_) hwaiting ?_
  · rcases hrests hr with hrest | hempty
    · exact h.rests hrest
    · exact h.units_eq_nil hempty
  · rw [hahead]
    exact List.nil_sublist _

theorem Tied.planMove (h : Tied cfg s) {a : ScraperAct} {s' : Scraper}
    (hmove : PlanMove cfg s a s') : Tied cfg s' := by
  cases hmove with
  | plan call hstage hlimit hclock => exact h.plan hstage
  | look call idx todo out looked hstage hroom => exact h.look hstage
  | walk call todo out url info looked hstage => exact h.walk hstage
  | start percentile hstage => exact h.start hstage percentile
  | acquire day batch hstage hpermit => exact h.acquire hstage hpermit
  | insert day batch hstage => exact h.insert hstage
  | spawn day batch hstage => exact h.spawn hstage
  | pinned url hstage => exact h
  | leave now call looked hstage hflight hclock =>
    refine h.quiet rfl rfl rfl rfl ?_ ?_ ?_ rfl fun _ => Or.inr hflight
    all_goals
      rw [hstage]
      rfl
  | take call todo day out looked hstage hend =>
    refine h.quiet rfl rfl rfl rfl ?_ ?_ ?_ rfl nofun
    · rw [hstage]
      rfl
    · rw [hstage]
      rfl
    · rw [hstage]
      exact (List.append_nil _).symm
  | again call looked hstage hflight =>
    refine h.quiet rfl rfl rfl rfl ?_ ?_ ?_ rfl nofun
    all_goals
      rw [hstage]
      rfl
  | drained hstage | relays hstage =>
    refine h.quiet rfl rfl rfl rfl ?_ ?_ ?_ rfl nofun
    all_goals
      rw [hstage]
      rfl
  | pin url hstage hnew => exact h.put _ _
  | write t todo inPass hstage =>
    refine (h.put t.1 t.2).quiet rfl rfl rfl rfl ?_ ?_ ?_ rfl fun _ => Or.inl ?_
    all_goals
      rw [Scraper.put, hstage]
      rfl
  | begin hstage | discover found hstage | written hstage =>
    refine h.quiet rfl rfl rfl rfl ?_ ?_ ?_ rfl fun _ => Or.inl ?_
    all_goals
      rw [hstage]
      rfl

end plan

/-! ## The tasks -/

theorem erase_idx_of_nodup {l : List (List Char)} (h : l.Nodup) {i : ℕ} {x : List Char}
    (hx : l[i]? = some x) (y : List Char) : y ∈ l.eraseIdx i ↔ y ∈ l ∧ y ≠ x := by
  obtain ⟨hi, rfl⟩ := List.getElem?_eq_some_iff.mp hx
  rw [← h.erase_getElem i hi, h.mem_erase_iff, and_comm]

section tasks

variable {cfg : ScrapeConfig} {s : Scraper}

theorem running_set {i : ℕ} {u u' : ScrapeUnit} (hu : s.units[i]? = some u)
    (hurl : u'.day.url = u.day.url) :
    (s.units.set i u').map (fun u => u.day.url) = s.running := by
  apply List.ext_getElem?
  intro j
  rw [Scraper.running, List.getElem?_map, List.getElem?_map, List.getElem?_set]
  split
  case isTrue hij =>
    subst hij
    split
    · rw [hu, Option.map_some, Option.map_some, hurl]
    case isFalse hlen =>
      rw [List.getElem?_eq_none (not_lt.mp hlen)]
  case isFalse => rfl

/-- What is in a list after one place of it is written. -/
theorem mem_set_cases {α : Type*} {l : List α} {i : ℕ} {x y : α} (h : y ∈ l.set i x) :
    y = x ∨ ∃ j, j ≠ i ∧ l[j]? = some y := by
  obtain ⟨j, hj⟩ := List.mem_iff_getElem?.mp h
  rw [List.getElem?_set] at hj
  split at hj
  · split at hj
    · cases hj
      exact Or.inl rfl
    · cases hj
  case isFalse hij => exact Or.inr ⟨j, Ne.symm hij, hj⟩

/-- Two units are of different relays. -/
theorem Tied.url_ne (h : Tied cfg s) {i j : ℕ} {u v : ScrapeUnit} (hu : s.units[i]? = some u)
    (hv : s.units[j]? = some v) (hij : j ≠ i) : v.day.url ≠ u.day.url := by
  intro hurl
  have hnodup : s.running.Nodup := (List.nodup_append.mp (List.nodup_append.mp h.apart).1).1
  have hi : s.running[i]? = some u.day.url := by
    rw [Scraper.running, List.getElem?_map, hu, Option.map_some]
  have hj : s.running[j]? = some u.day.url := by
    rw [Scraper.running, List.getElem?_map, hv, Option.map_some, hurl]
  have hlt : i < s.running.length := (List.getElem?_eq_some_iff.mp hi).1
  exact hij ((List.getElem?_inj hlt hnodup).mp (hi.trans hj.symm)).symm

theorem Tied.unit (h : Tied cfg s) {i : ℕ} {a : UnitAct} {u u' : ScrapeUnit} {st' : ScrapeState}
    (hu : s.units[i]? = some u) (hstep : unitStep cfg (s.state, u) a = some (st', u'))
    (known : List (List Char)) (clock : ℕ) :
    Tied cfg
      { s with state := st', known := known, units := s.units.set i u', clock := clock } := by
  have hrunning : (s.units.set i u').map (fun u => u.day.url) = s.running :=
    running_set hu (unitStep_key hstep).1
  refine ⟨?_, fun url => ?_, ?_, fun hr => ?_, h.ahead, h.fresh⟩
  · rw [Scraper.running, hrunning]
    exact h.apart
  · rw [Scraper.running, hrunning]
    exact h.inFlight url
  · rw [List.length_set]
    exact h.slots
  · rw [h.rests hr] at hu
    cases hu

theorem Tied.gone (h : Tied cfg s) {i : ℕ} {u : ScrapeUnit} (hu : s.units[i]? = some u) :
    Tied cfg
      { s with
        units := s.units.eraseIdx i
        inFlight := s.inFlight.erase u.day.url
        leaving := s.leaving + 1 } := by
  have hlt : i < s.units.length := (List.getElem?_eq_some_iff.mp hu).1
  have hrunning : (s.units.eraseIdx i).map (fun u => u.day.url) = s.running.eraseIdx i := by
    rw [Scraper.running, List.eraseIdx_map]
  have hapart := h.apart
  have hurl : s.running[i]? = some u.day.url := by
    rw [Scraper.running, List.getElem?_map, hu, Option.map_some]
  have hnodup : s.running.Nodup := (List.nodup_append.mp (List.nodup_append.mp hapart).1).1
  refine ⟨?_, fun url => ?_, ?_, fun hr => ?_, h.ahead, h.fresh⟩
  · rw [Scraper.running, hrunning]
    refine hapart.sublist (List.Sublist.append_right (List.Sublist.append_right ?_ _) _)
    exact List.eraseIdx_sublist _ _
  · rw [Scraper.running, hrunning, Finset.mem_erase, h.inFlight, List.mem_append, List.mem_append,
      erase_idx_of_nodup hnodup hurl]
    have hentered : url ∈ s.stage.entered → url ≠ u.day.url := by
      intro hin heq
      have hdisj := (List.nodup_append.mp (List.nodup_append.mp hapart).1).2.2
      exact hdisj _ (List.mem_of_getElem? hurl) _ hin heq.symm
    tauto
  · show s.permits + (s.units.eraseIdx i).length + (s.leaving + 1) + s.stage.held = batchSize cfg
    have hslots := h.slots
    rw [List.length_eraseIdx_of_lt hlt]
    omega
  · rw [h.rests hr] at hu
    cases hu

theorem Tied.taskMove (h : Tied cfg s) {a : ScraperAct} {s' : Scraper}
    (hmove : TaskMove cfg s a s') : Tied cfg s' := by
  cases hmove with
  | unit i a u u' st' clock hu htick hstep => exact h.unit hu hstep _ clock
  | gone i u hu hover => exact h.gone hu
  | dropPermit hleaving =>
    refine ⟨h.apart, h.inFlight, ?_, h.rests, h.ahead, h.fresh⟩
    have hslots := h.slots
    show s.permits + 1 + s.units.length + (s.leaving - 1) + s.stage.held = batchSize cfg
    omega
  | reset url old hold => exact ⟨h.apart, h.inFlight, h.slots, h.rests, h.ahead, h.fresh⟩

end tasks

/-! ## Every interleaving -/

theorem tied_step {cfg : ScrapeConfig} {s s' : Scraper} {a : ScraperAct} (h : Tied cfg s)
    (hstep : scraperStep cfg s a = some s') : Tied cfg s' := by
  rcases moves_of_step hstep with hplan | htask
  · exact h.planMove hplan
  · exact h.taskMove htask

theorem tied_run {cfg : ScrapeConfig} {st : ScrapeState} {known : List (List Char)}
    {as : List ScraperAct} {s : Scraper}
    (hrun : run (scraperStep cfg) (scraperStart cfg st known) as = some s) : Tied cfg s :=
  run_invariant' (fun _ _ _ h hstep => tied_step h hstep) (tied_start cfg st known) hrun

/-- **One unit for each relay, and no more units than slots.** -/
theorem one_unit_per_relay {cfg : ScrapeConfig} {st : ScrapeState} {known : List (List Char)}
    {as : List ScraperAct} {s : Scraper}
    (hrun : run (scraperStep cfg) (scraperStart cfg st known) as = some s) :
    s.running.Nodup ∧ s.units.length ≤ max cfg.concurrency 1 ∧
      ∀ url, url ∈ s.inFlight ↔ url ∈ s.running ∨ url ∈ s.stage.entered := by
  have h := tied_run hrun
  refine ⟨(List.nodup_append.mp (List.nodup_append.mp h.apart).1).1, ?_, fun url => ?_⟩
  · have hslots := h.slots
    rw [batchSize] at hslots
    omega
  · rw [h.inFlight, List.mem_append]

theorem first_unit_in_flight :
    (firstUnit openRelay).running.Nodup ∧
      (firstUnit openRelay).units.length ≤ max floorConfig.concurrency 1 ∧
      ∀ url, url ∈ (firstUnit openRelay).inFlight ↔
        url ∈ (firstUnit openRelay).running ∨ url ∈ (firstUnit openRelay).stage.entered :=
  one_unit_per_relay run_firstUnit

end NostrSearch.Indexer
