import NostrSearch.Indexer.InFlight
import Mathlib.Data.List.DropRight

/-!
# Relays that are passed over

What keeps a relay from being drawn is in its record: a term that is not over, or the verdict that it
is no relay. The record is written back by whoever has a copy of it, and `plan_batch` goes by the
copies in the table that was read before the call. `SetAside P url`: the record and all copies that
the planning task will look at meet `P`, and no unit of the relay is on its way that could write
another. If every record that meets `P` is passed over, this lasts, whatever units, passes and
discoveries do (`SetAside.step`).
-/

namespace NostrSearch.Indexer

open NostrSearch.Core NostrSearch.Lib

/-! ## The table -/

/-- Every record is in the table. -/
def Scraper.Listed (s : Scraper) : Prop :=
  ∀ url info, s.state.relays url = some info → url ∈ s.known

theorem mem_table {s : Scraper} {t : List Char × RelayInfo} (h : t ∈ s.table) :
    s.state.relays t.1 = some t.2 := by
  obtain ⟨url, -, hurl⟩ := List.mem_filterMap.mp h
  obtain ⟨info, hinfo, rfl⟩ := Option.map_eq_some_iff.mp hurl
  exact hinfo

theorem Scraper.Listed.mem_table {s : Scraper} (h : s.Listed) {url : List Char} {info : RelayInfo}
    (hinfo : s.state.relays url = some info) : (url, info) ∈ s.table :=
  List.mem_filterMap.mpr ⟨url, h url info hinfo, by rw [hinfo, Option.map_some]⟩

theorem listed_step {cfg : ScrapeConfig} {s s' : Scraper} {a : ScraperAct} (h : s.Listed)
    (hstep : scraperStep cfg s a = some s') : s'.Listed := by
  have hput : ∀ url info, (s.put url info).Listed := by
    intro url info u info' hu
    rw [Scraper.put, mem_addKey]
    by_cases heq : u = url
    · exact Or.inr heq
    · refine Or.inl (h u info' ?_)
      rw [← hu]
      exact (Function.update_of_ne heq ..).symm
  rcases moves_of_step hstep with hmove | hmove
  · cases hmove with
    | pin url hstage hnew => exact hput _ _
    | write t todo inPass hstage => exact hput _ _
    | _ => exact h
  · cases hmove with
    | unit i a u u' st' clock hu htick hunit =>
      intro url info hurl
      rw [mem_addKey]
      by_cases heq : url = u.day.url
      · exact Or.inr heq
      · rw [unitStep_relays_of_ne hunit heq] at hurl
        exact Or.inl (h url info hurl)
    | reset url old hold =>
      intro u info hu
      by_cases heq : u = url
      · exact heq ▸ h url old hold
      · exact h u info ((Function.update_of_ne heq ..).symm.trans hu)
    | _ => exact h

/-! ## Copies of a record -/

/-- The records the planning task will still look at, or write. -/
def ScraperStage.holds : ScraperStage → RelayTable
  | .writing todo _ => todo
  | .scope targets => targets
  | .planning call todo _ _ _ => todo.filterMap fun i => call.targets[i]?
  | _ => []

/-- The record of the relay meets `P` wherever it is, and there is no unit of it that could write
another. -/
structure SetAside (P : RelayInfo → Prop) (url : List Char) (s : Scraper) : Prop where
  stored : ∃ info, s.state.relays url = some info ∧ P info
  copies : ∀ t ∈ s.stage.holds, t.1 = url → P t.2
  notDrawn : url ∉ s.stage.entered ++ s.stage.waiting
  ended : ∀ u ∈ s.units, u.day.url = url → u.stage = .recorded ∨ u.stage = .over

namespace SetAside

variable {P : RelayInfo → Prop} {url : List Char} {cfg : ScrapeConfig} {s s' : Scraper}

/-- A step that draws nothing and leaves the record and the units alone. -/
theorem keep (h : SetAside P url s) (hstored : s'.state.relays url = s.state.relays url)
    (hcopies : ∀ t ∈ s'.stage.holds, t.1 = url → P t.2)
    (hdrawn : url ∈ s'.stage.entered ++ s'.stage.waiting →
      url ∈ s.stage.entered ++ s.stage.waiting)
    (hunits : ∀ u ∈ s'.units, u ∈ s.units) : SetAside P url s' where
  stored := by
    rw [hstored]
    exact h.stored
  copies := hcopies
  notDrawn := fun hin => h.notDrawn (hdrawn hin)
  ended := fun u hu => h.ended u (hunits u hu)

/-- A step to a stage that has drawn no relay. -/
theorem undrawn (h : SetAside P url s) (hstored : s'.state.relays url = s.state.relays url)
    (hcopies : ∀ t ∈ s'.stage.holds, t.1 = url → P t.2)
    (hdrawn : s'.stage.entered ++ s'.stage.waiting = []) (hunits : s'.units = s.units) :
    SetAside P url s' := by
  refine h.keep hstored hcopies ?_ ?_
  · rw [hdrawn]
    exact fun hin => absurd hin List.not_mem_nil
  · rw [hunits]
    exact fun _ hu => hu

/-- The record as the table has it. -/
theorem of_mem_table (h : SetAside P url s) {t : List Char × RelayInfo} (ht : t ∈ s.table)
    (hurl : t.1 = url) : P t.2 := by
  obtain ⟨info, hinfo, hP⟩ := h.stored
  have hrecord := mem_table ht
  rw [hurl, hinfo] at hrecord
  cases hrecord
  exact hP

/-- Discovery changes the number of sources. -/
theorem of_mem_discovered (hsources : ∀ info n, P info → P { info with sources := n })
    (h : SetAside P url s) {found : List (List Char × ℕ)} {t : List Char × RelayInfo}
    (ht : t ∈ discovered s.state.relays found) (hurl : t.1 = url) : P t.2 := by
  obtain ⟨f, -, rfl⟩ := List.mem_map.mp ht
  obtain ⟨info, hinfo, hP⟩ := h.stored
  dsimp only at hurl ⊢
  rw [hurl, hinfo]
  exact hsources info _ hP

/-- A pin is no record of a relay the table has. -/
theorem ne_of_new (h : SetAside P url s) (hlisted : s.Listed) {u : List Char}
    (hnew : ∀ t ∈ s.table, trimSlashes t.1 ≠ trimSlashes u) : url ≠ trimSlashes u := by
  rintro rfl
  obtain ⟨info, hinfo, -⟩ := h.stored
  exact hnew _ (hlisted.mem_table hinfo) (List.rdropWhile_idempotent _ _)

/-- **The planning task.** Its copies stay what they are; what it looks at it passes over. -/
theorem planMove (hsources : ∀ info n, P info → P { info with sources := n })
    (hskip : ∀ call todo out cur looked, s.stage = .planning call todo out cur looked →
      ∀ info, P info → info.refused call.now = true)
    (h : SetAside P url s) (hlisted : s.Listed) {a : ScraperAct}
    (hrelease : a = .begin → ∀ info, P info → info.nip11 = some false)
    (hmove : PlanMove cfg s a s') : SetAside P url s' := by
  have hcopies := h.copies
  have hdrawn := h.notDrawn
  cases hmove with
  | discover found hstage =>
    exact h.undrawn rfl (fun t ht hurl => h.of_mem_discovered hsources ht hurl) rfl rfl
  | pinned u hstage => exact h
  | pin u hstage hnew =>
    exact h.keep (Function.update_of_ne (h.ne_of_new hlisted hnew) ..) hcopies id fun _ hu => hu
  | begin hstage =>
    refine h.undrawn rfl (fun t ht hurl => ?_) rfl rfl
    obtain ⟨t', ht', rfl⟩ := List.mem_map.mp ht
    obtain ⟨htable, hfilter⟩ := List.mem_filter.mp ht'
    have hnip := hrelease rfl _ (h.of_mem_table htable hurl)
    rw [Bool.and_eq_true, decide_eq_true_eq] at hfilter
    -- who is released is not marked as no relay
    exact absurd hnip hfilter.2
  | write t todo inPass hstage =>
    rw [hstage] at hcopies hdrawn
    refine ⟨?_, fun t' ht' => hcopies t' (List.mem_cons_of_mem _ ht'), List.not_mem_nil, h.ended⟩
    -- the record that is written is its own, from the copy, or another
    by_cases hurl : t.1 = url
    · refine ⟨t.2, ?_, hcopies t List.mem_cons_self hurl⟩
      rw [← hurl]
      exact Function.update_self ..
    · obtain ⟨info, hinfo, hP⟩ := h.stored
      exact ⟨info, (Function.update_of_ne (Ne.symm hurl) ..).trans hinfo, hP⟩
  | written hstage => exact h.undrawn rfl (List.forall_mem_nil _) rfl rfl
  | start percentile hstage => exact h.undrawn rfl (List.forall_mem_nil _) rfl rfl
  | relays hstage =>
    refine h.undrawn rfl (fun t ht hurl => ?_) rfl rfl
    exact h.of_mem_table (mem_retained.mp (mem_retained_of_mem_scrapeTargets ht)).1 hurl
  | plan call hstage hlimit hclock =>
    rw [hstage] at hcopies
    refine h.undrawn rfl (fun t ht hurl => ?_) rfl rfl
    obtain ⟨i, -, hi⟩ := List.mem_filterMap.mp ht
    exact hcopies t (List.mem_of_getElem? hi) hurl
  | look call idx todo out looked hstage hroom =>
    rw [hstage] at hcopies hdrawn
    refine ⟨h.stored, fun t ht hurl => ?_, ?_, h.ended⟩
    · refine hcopies t ?_ hurl
      obtain ⟨i, hi, hti⟩ := List.mem_filterMap.mp ht
      exact List.mem_filterMap.mpr ⟨i, List.mem_cons_of_mem _ hi, hti⟩
    · intro hin
      simp only [ScraperStage.entered, ScraperStage.waiting, List.nil_append, List.mem_append]
        at hin hdrawn
      rcases hin with hout | hcur
      · exact hdrawn (Or.inl hout)
      · rw [Option.mem_toList, Option.map_eq_some_iff] at hcur
        obtain ⟨t, hlooks, hurl⟩ := hcur
        -- `plan_batch` would have had to take it, and its record is refused
        obtain ⟨htarget, hnot, -⟩ := looks_some hlooks
        have hP := hcopies t (List.mem_filterMap.mpr ⟨idx, List.mem_cons_self, htarget⟩) hurl
        rw [hskip _ _ _ _ _ hstage _ hP] at hnot
        cases hnot
  | walk call todo out u info looked hstage =>
    rw [hstage] at hcopies hdrawn
    refine ⟨h.stored, hcopies, fun hin => hdrawn ?_, h.ended⟩
    simp only [ScraperStage.entered, ScraperStage.waiting, List.nil_append, List.map_append,
      List.mem_append, Option.map_none, Option.toList_none, List.not_mem_nil, or_false,
      Option.map_some, Option.toList_some, List.mem_singleton] at hin ⊢
    rcases hin with hout | hnew
    · exact Or.inl hout
    · obtain ⟨d, hd, rfl⟩ := List.mem_map.mp hnew
      rw [Option.mem_toList, Option.map_eq_some_iff] at hd
      obtain ⟨day, -, rfl⟩ := hd
      exact Or.inr rfl
  | again call looked hstage hflight => exact h.undrawn rfl (List.forall_mem_nil _) rfl rfl
  | take call todo day out looked hstage hend =>
    rw [hstage] at hdrawn
    refine ⟨h.stored, List.forall_mem_nil _, fun hin => hdrawn ?_, h.ended⟩
    simp only [ScraperStage.entered, ScraperStage.waiting, Option.map_none, Option.toList_none,
      List.append_nil, List.nil_append] at hin ⊢
    exact hin
  | leave now call looked hstage hflight hclock => exact h.undrawn rfl (List.forall_mem_nil _) rfl rfl
  | acquire day batch hstage hpermit =>
    rw [hstage] at hdrawn
    exact ⟨h.stored, List.forall_mem_nil _, hdrawn, h.ended⟩
  | insert day batch hstage =>
    rw [hstage] at hdrawn
    exact ⟨h.stored, List.forall_mem_nil _, hdrawn, h.ended⟩
  | spawn day batch hstage =>
    rw [hstage] at hdrawn
    simp only [ScraperStage.entered, ScraperStage.waiting, List.mem_append, not_or,
      List.mem_singleton] at hdrawn
    refine ⟨h.stored, List.forall_mem_nil _, hdrawn.2, fun u hu hurl => ?_⟩
    rcases List.mem_append.mp hu with hold | hnew
    · exact h.ended u hold hurl
    · rw [List.mem_singleton.mp hnew] at hurl
      exact absurd hurl.symm hdrawn.1
  | drained hstage => exact h.undrawn rfl (List.forall_mem_nil _) rfl rfl

/-- The units and the administrator. -/
theorem taskMove (h : SetAside P url s) {a : ScraperAct} (hreset : a ≠ .reset url)
    (hmove : TaskMove cfg s a s') : SetAside P url s' := by
  cases hmove with
  | unit i a u u' st' clock hu htick hstep =>
    have hmem : u ∈ s.units := List.mem_of_getElem? hu
    have hkey := (unitStep_key hstep).1
    refine ⟨?_, h.copies, h.notDrawn, fun v hv hurl => ?_⟩
    · by_cases hurl : url = u.day.url
      · rw [(unitStep_ended hstep (h.ended u hmem hurl.symm)).1]
        exact h.stored
      · obtain ⟨info, hinfo, hP⟩ := h.stored
        exact ⟨info, (unitStep_relays_of_ne hstep hurl).trans hinfo, hP⟩
    · rcases List.mem_or_eq_of_mem_set hv with hold | rfl
      · exact h.ended v hold hurl
      · have hended := h.ended u hmem (hkey.symm.trans hurl)
        exact Or.inr (unitStep_ended hstep hended).2
  | gone i u hu hover =>
    exact h.keep rfl h.copies id fun v hv => List.mem_of_mem_eraseIdx hv
  | dropPermit hleaving => exact h.keep rfl h.copies id fun _ hu => hu
  | reset u old hold =>
    have hne : url ≠ u := fun heq => hreset (by rw [heq])
    exact h.keep (Function.update_of_ne hne ..) h.copies id fun _ hu => hu

/-- **A relay that is passed over is left alone.** -/
theorem step (hsources : ∀ info n, P info → P { info with sources := n })
    (hskip : ∀ call todo out cur looked, s.stage = .planning call todo out cur looked →
      ∀ info, P info → info.refused call.now = true)
    (h : SetAside P url s) (hlisted : s.Listed) {a : ScraperAct}
    (hrelease : a = .begin → ∀ info, P info → info.nip11 = some false)
    (hreset : a ≠ .reset url) (hstep : scraperStep cfg s a = some s') : SetAside P url s' := by
  rcases moves_of_step hstep with hmove | hmove
  · exact h.planMove hsources hskip hlisted hrelease hmove
  · exact h.taskMove hreset hmove

end SetAside

end NostrSearch.Indexer
