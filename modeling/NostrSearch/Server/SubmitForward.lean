import NostrSearch.Server.SubmitAccounts

/-!
# What a submission forwards

A batch is saved to the archive as a whole, and then its new events are sent to the writer. Where
the server crashes in between, the batch is screened again when the job is resumed, but the archive
has its events by then: they are counted as duplicates and never sent (`saved_event_is_lost`).

Every new event is sent if and only if no crash comes while the archive has an event of the batch
that it did not have before and that was not sent yet (`resumed_forwards_all_iff`).
-/

namespace NostrSearch.Server.Submit

open NostrSearch.Core NostrSearch.Lib

/-! ## What a flush holds -/

/-- The events of a batch, from their screening on. -/
def Stage.held : Stage → List NostrEvent
  | screening slots _ => slots.filterMap fun slot => slot.2.join
  | saving slots _ => slots.map Prod.fst
  | sending todo _ => todo.map Prod.fst
  | _ => []

def newEvent (slot : NostrEvent × Option SaveEventStatus) : Option NostrEvent :=
  if slot.2 = some .success then some slot.1 else none

/-- The events that the archive took as new and that are not sent yet. -/
def Stage.unsent : Stage → List NostrEvent
  | saving slots _ => slots.filterMap newEvent
  | sending todo _ => todo.filterMap fun x => newEvent (x.1, some x.2)
  | _ => []

/-- The events that the archive had. -/
def Stage.refused : Stage → List NostrEvent
  | saving slots _ => slots.filterMap fun slot =>
      if slot.2 = some .duplicate then some slot.1 else none
  | sending todo _ => todo.filterMap fun x => if x.2 = .duplicate then some x.1 else none
  | _ => []

/-- The events to be saved and saved. -/
def Stage.chosen : Stage → List NostrEvent
  | saving slots _ => slots.map Prod.fst
  | _ => []

namespace Node

/-- What the process of a busy server holds. -/
def inStage (s : Node) (f : Stage → List NostrEvent) : List NostrEvent :=
  match s.server with
  | .busy _ p => f p.stage
  | _ => []

def held (s : Node) : List NostrEvent := s.inStage Stage.held

def unsent (s : Node) : List NostrEvent := s.inStage Stage.unsent

def refused (s : Node) : List NostrEvent := s.inStage Stage.refused

def chosen (s : Node) : List NostrEvent := s.inStage Stage.chosen

/-- An event that was there before, or was sent. -/
def Reached (archive : Finset String) (dedupe : Option (Finset String)) (s : Node) (id : String) :
    Prop :=
  id ∈ archive ∨ (∃ ids, dedupe = some ids ∧ id ∈ ids) ∨ id ∈ s.sent.map NostrEvent.id

/-- Every event that passed the screening, and that was neither archived nor indexed before, was
sent. -/
def AllForwarded (archive : Finset String) (dedupe : Option (Finset String)) (s : Node) : Prop :=
  ∀ i ev, (i, ev) ∈ s.passed → ev.id ∉ archive → (∀ ids, dedupe = some ids → ev.id ∉ ids) →
    ev.id ∈ s.sent.map NostrEvent.id

end Node

/-! ## What the steps of a flush do to it -/

section stages

variable {s : Node} {job : Job} {p : Process} {f : Stage → List NostrEvent}

theorem inStage_busy (h : s.server = .busy job p) : s.inStage f = f p.stage := by
  rw [Node.inStage, h]

theorem inStage_rest (h : ∀ job p, s.server ≠ .busy job p) : s.inStage f = [] := by
  unfold Node.inStage
  split
  · next hbusy => exact absurd hbusy (h _ _)
  · rfl

theorem held_screened {slots : List (Line × Option (Option NostrEvent))} {after : After} {i : ℕ}
    {line : Line} (hi : slots[i]? = some (line, none)) (ev : Option NostrEvent) :
    (Stage.screening (slots.set i (line, some ev)) after).held.Perm
      (ev.toList ++ (Stage.screening slots after).held) :=
  (filterMap_set_perm (fun slot : Line × Option (Option NostrEvent) => slot.2.join)
    (b := (line, some ev)) hi).symm

variable {slots : List (NostrEvent × Option SaveEventStatus)} {after : After} {i : ℕ}
  {ev : NostrEvent}

theorem chosen_set (hi : slots[i]? = some (ev, none)) (status : SaveEventStatus) :
    (slots.set i (ev, some status)).map Prod.fst = slots.map Prod.fst := by
  obtain ⟨hlt, heq⟩ := List.getElem?_eq_some_iff.mp hi
  have hmap : i < (slots.map Prod.fst).length := by rwa [List.length_map]
  have hget : (slots.map Prod.fst)[i] = ev := by rw [List.getElem_map, heq]
  rw [List.map_set, ← hget, List.set_getElem_self]

theorem unsent_set (hi : slots[i]? = some (ev, none)) (status : SaveEventStatus) :
    (Stage.saving (slots.set i (ev, some status)) after).unsent.Perm
      ((if status = .success then [ev] else []) ++ (Stage.saving slots after).unsent) := by
  refine (filterMap_set_perm newEvent (b := (ev, some status)) hi).symm.trans ?_
  cases status <;> exact List.Perm.refl _

theorem refused_set (hi : slots[i]? = some (ev, none)) (status : SaveEventStatus) :
    (Stage.saving (slots.set i (ev, some status)) after).refused.Perm
      ((if status = .duplicate then [ev] else []) ++ (Stage.saving slots after).refused) := by
  refine (filterMap_set_perm (fun slot : NostrEvent × Option SaveEventStatus =>
    if slot.2 = some .duplicate then some slot.1 else none) (b := (ev, some status)) hi).symm.trans ?_
  cases status <;> exact List.Perm.refl _

/-- An event that is not saved yet has an id of its own. -/
theorem not_unsent_of_slot (hi : slots[i]? = some (ev, none))
    (hdistinct : ((Stage.saving slots after).chosen.map NostrEvent.id).Nodup) :
    ev.id ∉ (Stage.saving slots after).unsent.map NostrEvent.id := by
  intro hin
  obtain ⟨x, hx, heq⟩ := List.mem_map.mp hin
  obtain ⟨slot, hslot, hnew⟩ := List.mem_filterMap.mp hx
  unfold newEvent at hnew
  split_ifs at hnew with hsuccess
  cases hnew
  rw [Stage.chosen, List.map_map] at hdistinct
  have hsame : slot = (ev, none) :=
    List.inj_on_of_nodup_map hdistinct hslot (List.mem_of_getElem? hi) heq
  rw [hsame] at hsuccess
  cases hsuccess

/-- Before anything is saved there are no answers. -/
theorem unsent_none (evs : List NostrEvent) (after : After) :
    (Stage.saving (evs.map fun ev => (ev, none)) after).unsent = [] := by
  simp [Stage.unsent, List.filterMap_map, newEvent, Function.comp_def]

theorem refused_none (evs : List NostrEvent) (after : After) :
    (Stage.saving (evs.map fun ev => (ev, none)) after).refused = [] := by
  simp [Stage.refused, List.filterMap_map]

/-- The answers of the archive, once it has answered for all. -/
def answers (slots : List (NostrEvent × Option SaveEventStatus)) :
    List (NostrEvent × SaveEventStatus) :=
  slots.filterMap fun slot => slot.2.map fun status => (slot.1, status)

theorem held_saved (hall : ∀ slot ∈ slots, slot.2.isSome = true) :
    (answers slots).map Prod.fst = slots.map Prod.fst := by
  induction slots with
  | nil => rfl
  | cons slot slots ih =>
    obtain ⟨hslot, hrest⟩ := List.forall_mem_cons.mp hall
    obtain ⟨status, heq⟩ := Option.isSome_iff_exists.mp hslot
    rw [answers, List.filterMap_cons_some (by rw [heq]; rfl), List.map_cons, List.map_cons]
    exact congrArg _ (ih hrest)

theorem unsent_saved :
    (Stage.sending (answers slots) after).unsent = (Stage.saving slots after).unsent := by
  simp only [Stage.unsent, answers, List.filterMap_filterMap]
  congr 1
  funext slot
  obtain ⟨ev, status⟩ := slot
  cases status <;> rfl

theorem refused_saved :
    (Stage.sending (answers slots) after).refused = (Stage.saving slots after).refused := by
  simp only [Stage.refused, answers, List.filterMap_filterMap]
  congr 1
  funext slot
  obtain ⟨ev, status⟩ := slot
  cases status <;> simp

/-- Nothing is held. -/
structure Stage.Blank (st : Stage) : Prop where
  held : st.held = []
  unsent : st.unsent = []
  refused : st.refused = []
  chosen : st.chosen = []

theorem flush_blank (after : After) : (p.flush after).stage.Blank := by
  unfold Process.flush
  split
  · exact ⟨rfl, rfl, rfl, rfl⟩
  · exact ⟨by simp [Stage.held, List.filterMap_map], rfl, rfl, rfl⟩

theorem turn_blank (h : p.stage = .reading) (batchLines : ℕ) :
    (p.turn batchLines job).2.stage.Blank := by
  have hreading : p.stage.Blank := by
    rw [h]
    exact ⟨rfl, rfl, rfl, rfl⟩
  rcases @turn_cases job p batchLines with ⟨-, -, hp⟩ | ⟨item, unread, c, -, -, -, hp, -⟩ |
    ⟨item, unread, bytes, -, -, -, hp⟩
  · rw [hp]
    exact flush_blank _
  · rw [hp]
    exact hreading
  · rcases @push_cases { p with unread := unread } { number := job.cursor, bytes := bytes }
      batchLines with heq | heq
    · rw [hp, heq]
      exact hreading
    · rw [hp, heq]
      exact flush_blank _

end stages

/-! ## New events -/

section new

variable {lib : ScreenLib} {batchLines : ℕ} {up : Upload} {archive : Finset String}
  {dedupe : Option (Finset String)} {s s' : Node} {job : Job} {p : Process}

/-- An event that the archive took as new and that is not sent. -/
structure NewTo (archive : Finset String) (dedupe : Option (Finset String)) (s : Node)
    (ev : NostrEvent) : Prop where
  archived : ev.id ∈ s.archive
  notBefore : ev.id ∉ archive
  notIndexed : ∀ ids, dedupe = some ids → ev.id ∉ ids
  notSent : ev.id ∉ s.sent.map NostrEvent.id
  passed : ∃ i, (i, ev) ∈ s.passed

/-- The stores have what they had, what was sent is archived, and what is to be sent is new. -/
structure Fresh (archive : Finset String) (dedupe : Option (Finset String)) (s : Node) : Prop where
  archived : archive ⊆ s.archive
  indexed : ∀ ids, dedupe = some ids → ∃ ids', s.dedupe = some ids' ∧ ids ⊆ ids'
  sent : ∀ ev ∈ s.sent, ev.id ∈ s.archive
  held : ∀ ev ∈ s.held, ∃ i, (i, ev) ∈ s.passed
  chosen : ∀ ev ∈ s.chosen, ∀ ids, dedupe = some ids → ev.id ∉ ids
  unsent : ∀ ev ∈ s.unsent, NewTo archive dedupe s ev
  nodup : (s.unsent.map NostrEvent.id).Nodup

/-- What holds of the events of the stage that is under way. -/
theorem Fresh.inStage (h : Fresh archive dedupe s) (hserver : s.server = .busy job p) {stage : Stage}
    (hstage : p.stage = stage) :
    (∀ ev ∈ stage.held, ∃ i, (i, ev) ∈ s.passed) ∧ (∀ ev ∈ stage.unsent, NewTo archive dedupe s ev) ∧
      (stage.unsent.map NostrEvent.id).Nodup := by
  have hheld := h.held
  have hunsent := h.unsent
  have hnodup := h.nodup
  rw [Node.held, inStage_busy hserver, hstage] at hheld
  rw [Node.unsent, inStage_busy hserver, hstage] at hunsent hnodup
  exact ⟨hheld, hunsent, hnodup⟩

/-- Nothing is held. -/
theorem Fresh.quiet (h : Fresh archive dedupe s) (hheld : s'.held = []) (hchosen : s'.chosen = [])
    (hunsent : s'.unsent = []) (harchive : s'.archive = s.archive) (hdedupe : s'.dedupe = s.dedupe)
    (hsent : s'.sent = s.sent) : Fresh archive dedupe s' where
  archived := harchive ▸ h.archived
  indexed := hdedupe ▸ h.indexed
  sent := by
    rw [hsent, harchive]
    exact h.sent
  held := by
    rw [hheld]
    nofun
  chosen := by
    rw [hchosen]
    nofun
  unsent := by
    rw [hunsent]
    nofun
  nodup := by
    rw [hunsent]
    exact List.nodup_nil

theorem NewTo.mono {ev : NostrEvent} (h : NewTo archive dedupe s ev)
    (harchive : s.archive ⊆ s'.archive)
    (hsent : ev.id ∉ s'.sent.map NostrEvent.id) (hpassed : ∀ x ∈ s.passed, x ∈ s'.passed) :
    NewTo archive dedupe s' ev where
  archived := harchive h.archived
  notBefore := h.notBefore
  notIndexed := h.notIndexed
  notSent := hsent
  passed := h.passed.imp fun _ hi => hpassed _ hi

theorem uniqueEvents_subset (inBatch : Finset String) (evs : List NostrEvent) :
    ∀ ev ∈ (uniqueEvents inBatch evs).1, ev ∈ evs := by
  induction evs generalizing inBatch with
  | nil => exact fun ev h => h
  | cons x evs ih =>
    intro ev hev
    rw [uniqueEvents] at hev
    split at hev
    · exact List.mem_cons_of_mem _ (ih inBatch ev hev)
    · rcases List.mem_cons.mp hev with rfl | hrest
      · exact List.mem_cons_self
      · exact List.mem_cons_of_mem _ (ih _ ev hrest)

/-- A line is screened. -/
theorem Fresh.screened (h : Fresh archive dedupe s) (hserver : s.server = .busy job p)
    {slots : List (Line × Option (Option NostrEvent))} {after : After} {i now : ℕ} {line : Line}
    (hstage : p.stage = .screening slots after) (hi : slots[i]? = some (line, none))
    (given : Option NostrEvent) (c : Counts) :
    Fresh archive dedupe
      { s with
        clock := now
        handed := s.handed ++ [line.number]
        passed := s.passed ++ (given.map fun ev => (line.number, ev)).toList
        server := .busy { job with counts := c }
          { p with stage := .screening (slots.set i (line, some given)) after } } := by
  obtain ⟨hheld, -, -⟩ := h.inStage hserver hstage
  refine ⟨h.archived, h.indexed, h.sent, ?_, nofun, nofun, List.nodup_nil⟩
  intro ev hev
  rcases List.mem_append.mp ((held_screened hi _).mem_iff.mp hev) with hnew | hold
  · refine ⟨line.number, List.mem_append_right _ ?_⟩
    rw [Option.mem_toList] at hnew
    rw [hnew]
    exact List.mem_cons_self
  · obtain ⟨j, hj⟩ := hheld ev hold
    exact ⟨j, List.mem_append_left _ hj⟩

/-- The events that are left are chosen. -/
theorem Fresh.deduped (h : Fresh archive dedupe s) (hserver : s.server = .busy job p)
    {slots : List (Line × Option (Option NostrEvent))} {after : After}
    (hstage : p.stage = .screening slots after) (c : Counts) :
    Fresh archive dedupe
      { s with
        server := .busy { job with counts := c }
          { p with
            stage := .saving
              (((uniqueEvents ∅ (slots.filterMap fun slot => slot.2.join)).1.filter
                fun ev => !s.known ev).map fun ev => (ev, none)) after } } := by
  obtain ⟨hheld, -, -⟩ := h.inStage hserver hstage
  have hmem : ∀ ev ∈ (((uniqueEvents ∅ (slots.filterMap fun slot => slot.2.join)).1.filter
      fun ev => !s.known ev).map fun ev => (ev, (none : Option SaveEventStatus))).map Prod.fst,
      ev ∈ slots.filterMap (fun slot => slot.2.join) ∧ s.known ev = false := by
    intro ev hev
    simp only [List.map_map, Function.comp_def, List.map_id', List.mem_filter,
      Bool.not_eq_true'] at hev
    exact ⟨uniqueEvents_subset _ _ ev hev.1, hev.2⟩
  refine ⟨h.archived, h.indexed, h.sent, fun ev hev => hheld ev (hmem ev hev).1, ?_, ?_, ?_⟩
  · intro ev hev ids hids hin
    obtain ⟨ids', heq, hsub⟩ := h.indexed ids hids
    have hknown := (hmem ev hev).2
    rw [Node.known, heq, Option.any_some, decide_eq_false_iff_not] at hknown
    exact hknown (hsub hin)
  · intro ev hev
    rw [Node.unsent, inStage_busy rfl, unsent_none] at hev
    cases hev
  · rw [Node.unsent, inStage_busy rfl, unsent_none]
    exact List.nodup_nil

/-- The archive answers: what it takes for new, it did not have. -/
theorem Fresh.save (h : Fresh archive dedupe s) (hserver : s.server = .busy job p)
    {slots : List (NostrEvent × Option SaveEventStatus)} {after : After} {i : ℕ} {ev : NostrEvent}
    (hstage : p.stage = .saving slots after) (hi : slots[i]? = some (ev, none)) :
    Fresh archive dedupe
      { s with
        archive := (saveEvent s.archive ev).2
        server := .busy job
          { p with
            stage := .saving (slots.set i (ev, some (saveEvent s.archive ev).1)) after } } := by
  obtain ⟨hheld, hunsent, hnodup⟩ := h.inStage hserver hstage
  have hchosen := h.chosen
  rw [Node.chosen, inStage_busy hserver, hstage] at hchosen
  have hev : ev ∈ slots.map Prod.fst := List.mem_map_of_mem (List.mem_of_getElem? hi)
  have harchive : s.archive ⊆ (saveEvent s.archive ev).2 := by
    rw [Delivery.saveEvent_archive]
    exact Finset.subset_insert _ _
  have hperm := @unsent_set slots after i ev hi (saveEvent s.archive ev).1
  refine ⟨h.archived.trans harchive, h.indexed, fun x hx => harchive (h.sent x hx), ?_, ?_, ?_, ?_⟩
  · intro x hx
    rw [Node.held, inStage_busy rfl, Stage.held, chosen_set hi] at hx
    exact hheld x hx
  · intro x hx
    rw [Node.chosen, inStage_busy rfl, Stage.chosen, chosen_set hi] at hx
    exact hchosen x hx
  · intro x hx
    rw [Node.unsent, inStage_busy rfl, hperm.mem_iff, List.mem_append] at hx
    rcases hx with hnew | hold
    · split_ifs at hnew with hsuccess
      · rw [List.mem_singleton] at hnew
        subst hnew
        have hfresh : x.id ∉ s.archive := Delivery.saveEvent_success.mp hsuccess
        refine ⟨?_, fun hin => hfresh (h.archived hin), hchosen x hev, ?_, hheld x hev⟩
        · rw [Delivery.saveEvent_archive]
          exact Finset.mem_insert_self _ _
        · rintro hin
          obtain ⟨y, hy, heq⟩ := List.mem_map.mp hin
          exact hfresh (heq ▸ h.sent y hy)
      · cases hnew
    · exact (hunsent x hold).mono harchive (hunsent x hold).notSent fun _ hx => hx
  · rw [Node.unsent, inStage_busy rfl, (hperm.map NostrEvent.id).nodup_iff]
    split_ifs with hsuccess
    · refine List.nodup_cons.mpr ⟨?_, hnodup⟩
      rintro hin
      obtain ⟨y, hy, heq⟩ := List.mem_map.mp hin
      exact Delivery.saveEvent_success.mp hsuccess (heq ▸ (hunsent y hy).archived)
    · exact hnodup

/-- All answers are there. -/
theorem Fresh.saved (h : Fresh archive dedupe s) (hserver : s.server = .busy job p)
    {slots : List (NostrEvent × Option SaveEventStatus)} {after : After}
    (hstage : p.stage = .saving slots after) (hall : ∀ slot ∈ slots, slot.2.isSome = true) :
    Fresh archive dedupe
      { s with server := .busy job { p with stage := .sending (answers slots) after } } := by
  obtain ⟨hheld, hunsent, hnodup⟩ := h.inStage hserver hstage
  refine ⟨h.archived, h.indexed, h.sent, ?_, nofun, ?_, ?_⟩
  · intro x hx
    rw [Node.held, inStage_busy rfl, Stage.held, held_saved hall] at hx
    exact hheld x hx
  · intro x hx
    rw [Node.unsent, inStage_busy rfl, unsent_saved] at hx
    exact (hunsent x hx).mono (Finset.Subset.refl _) (hunsent x hx).notSent fun _ hx => hx
  · rw [Node.unsent, inStage_busy rfl, unsent_saved]
    exact hnodup

/-- An event is sent. -/
theorem Fresh.sendNew (h : Fresh archive dedupe s) (hserver : s.server = .busy job p)
    {ev : NostrEvent} {todo : List (NostrEvent × SaveEventStatus)} {after : After}
    (hstage : p.stage = .sending ((ev, .success) :: todo) after) (c : Counts) :
    Fresh archive dedupe
      { s with
        sent := s.sent ++ [ev]
        server := .busy { job with counts := c } { p with stage := .sending todo after } } := by
  obtain ⟨hheld, hunsent, hnodup⟩ := h.inStage hserver hstage
  obtain ⟨hev, hrest⟩ := List.forall_mem_cons.mp hunsent
  obtain ⟨hne, hnodup'⟩ := List.nodup_cons.mp hnodup
  refine ⟨h.archived, h.indexed, ?_, fun x hx => hheld x (List.mem_cons_of_mem _ hx), nofun, ?_,
    hnodup'⟩
  · intro x hx
    rcases List.mem_append.mp hx with hold | hnew
    · exact h.sent x hold
    · rw [List.mem_singleton.mp hnew]
      exact hev.archived
  · intro x hx
    refine (hrest x hx).mono (Finset.Subset.refl _) ?_ fun _ hx => hx
    rw [List.map_append, List.mem_append]
    rintro (hold | hnew)
    · exact (hrest x hx).notSent hold
    · rw [List.map_singleton, List.mem_singleton] at hnew
      exact hne (hnew ▸ List.mem_map_of_mem hx)

/-- An event that the archive had already is passed over. -/
theorem Fresh.sendOld (h : Fresh archive dedupe s) (hserver : s.server = .busy job p)
    {ev : NostrEvent} {todo : List (NostrEvent × SaveEventStatus)} {after : After}
    (hstage : p.stage = .sending ((ev, .duplicate) :: todo) after) (c : Counts) :
    Fresh archive dedupe
      { s with
        server := .busy { job with counts := c } { p with stage := .sending todo after } } := by
  obtain ⟨hheld, hunsent, hnodup⟩ := h.inStage hserver hstage
  refine ⟨h.archived, h.indexed, h.sent, fun x hx => hheld x (List.mem_cons_of_mem _ hx), nofun, ?_,
    hnodup⟩
  intro x hx
  exact (hunsent x hx).mono (Finset.Subset.refl _) (hunsent x hx).notSent fun _ hx => hx

theorem fresh_step (h : Fresh archive dedupe s) {a : Act}
    (hstep : step lib batchLines up s a = some s') : Fresh archive dedupe s' := by
  cases move_of_step hstep with
  | load hserver => exact h.quiet rfl rfl rfl rfl rfl rfl
  | claim hserver hphase hfile => exact h.quiet rfl rfl rfl rfl rfl rfl
  | lost hserver hphase hfile => exact h.quiet rfl rfl rfl rfl rfl rfl
  | rest hserver => exact h.quiet rfl rfl rfl rfl rfl rfl
  | crash hserver => exact h.quiet rfl rfl rfl rfl rfl rfl
  | @record ids hids =>
    refine ⟨h.archived, ?_, h.sent, h.held, h.chosen, ?_, h.nodup⟩
    · intro old hold
      obtain ⟨ids', heq, hsub⟩ := h.indexed old hold
      refine ⟨ids' ∪ ids, ?_, hsub.trans Finset.subset_union_left⟩
      simp only [heq, Option.map_some]
    · intro ev hev
      exact (h.unsent ev hev).mono (Finset.Subset.refl _) (h.unsent ev hev).notSent fun _ hx => hx
  | @process job p a s' hserver hmove =>
    cases hmove with
    | turn hstage =>
      have hblank := @turn_blank job p hstage batchLines
      exact h.quiet hblank.held hblank.chosen hblank.unsent rfl rfl rfl
    | stop hstage =>
      have hblank := @flush_blank p .stopped
      exact h.quiet hblank.held hblank.chosen hblank.unsent rfl rfl rfl
    | screen hstage hi hclock => exact h.screened hserver hstage hi _ _
    | dedupe hstage hall => exact h.deduped hserver hstage _
    | save hstage hi => exact h.save hserver hstage hi
    | saved hstage hall => exact h.saved hserver hstage hall
    | sendNew hstage => exact h.sendNew hserver hstage _
    | sendOld hstage => exact h.sendOld hserver hstage _
    | @persist after hstage =>
      refine h.quiet ?_ ?_ ?_ rfl rfl rfl
      all_goals
        refine (inStage_busy rfl).trans ?_
        split_ifs <;> rfl
    | exit hstage => exact h.quiet rfl rfl rfl rfl rfl rfl
    | done hstage => exact h.quiet rfl rfl rfl rfl rfl rfl

/-- What a step does to the ids: what is sent was to be sent, and what is to be sent now was so
before, or is new to the archive. -/
structure Flow (s s' : Node) : Prop where
  archive : s.archive ⊆ s'.archive
  passed : ∀ x ∈ s.passed, x ∈ s'.passed
  sent : ∀ id ∈ s'.sent.map NostrEvent.id,
    id ∈ s.sent.map NostrEvent.id ∨ id ∈ s.unsent.map NostrEvent.id
  unsent : ∀ id ∈ s'.unsent.map NostrEvent.id, id ∈ s.unsent.map NostrEvent.id ∨ id ∉ s.archive

theorem Flow.quiet (hunsent : s'.unsent = []) (harchive : s'.archive = s.archive)
    (hpassed : s'.passed = s.passed) (hsent : s'.sent = s.sent) : Flow s s' where
  archive := harchive ▸ Finset.Subset.refl _
  passed := hpassed ▸ fun _ hx => hx
  sent := hsent ▸ fun _ hid => Or.inl hid
  unsent := by
    rw [hunsent]
    nofun

theorem flow_step {a : Act} (hstep : step lib batchLines up s a = some s') : Flow s s' := by
  cases move_of_step hstep with
  | load hserver => exact .quiet rfl rfl rfl rfl
  | claim hserver hphase hfile => exact .quiet rfl rfl rfl rfl
  | lost hserver hphase hfile => exact .quiet rfl rfl rfl rfl
  | rest hserver => exact .quiet rfl rfl rfl rfl
  | crash hserver => exact .quiet rfl rfl rfl rfl
  | record hids =>
    exact ⟨Finset.Subset.refl _, fun _ hx => hx, fun _ hid => Or.inl hid, fun _ hid => Or.inl hid⟩
  | @process job p a s' hserver hmove =>
    cases hmove with
    | turn hstage => exact .quiet (@turn_blank job p hstage batchLines).unsent rfl rfl rfl
    | stop hstage => exact .quiet (@flush_blank p .stopped).unsent rfl rfl rfl
    | screen hstage hi hclock =>
      exact ⟨Finset.Subset.refl _, fun _ hx => List.mem_append_left _ hx, fun _ hid => Or.inl hid,
        nofun⟩
    | @dedupe slots after hstage hall => exact .quiet (unsent_none _ after) rfl rfl rfl
    | @save slots after i ev hstage hi =>
      have hperm := @unsent_set slots after i ev hi (saveEvent s.archive ev).1
      refine ⟨?_, fun _ hx => hx, fun _ hid => Or.inl hid, ?_⟩
      · rw [Delivery.saveEvent_archive]
        exact Finset.subset_insert _ _
      · intro id hid
        rw [Node.unsent, inStage_busy rfl, (hperm.map NostrEvent.id).mem_iff, List.map_append,
          List.mem_append] at hid
        rw [Node.unsent, inStage_busy hserver, hstage]
        rcases hid with hnew | hold
        · split_ifs at hnew with hsuccess
          · rw [List.map_singleton, List.mem_singleton] at hnew
            exact Or.inr (hnew ▸ Delivery.saveEvent_success.mp hsuccess)
          · cases hnew
        · exact Or.inl hold
    | @saved slots after hstage hall =>
      refine ⟨Finset.Subset.refl _, fun _ hx => hx, fun _ hid => Or.inl hid, fun id hid => ?_⟩
      have hid' : id ∈ (Stage.sending (answers slots) after).unsent.map NostrEvent.id := hid
      rw [unsent_saved] at hid'
      rw [Node.unsent, inStage_busy hserver, hstage]
      exact Or.inl hid'
    | @sendNew ev todo after hstage =>
      have hunsent : s.unsent = ev :: (Stage.sending todo after).unsent := by
        rw [Node.unsent, inStage_busy hserver, hstage]
        rfl
      refine ⟨Finset.Subset.refl _, fun _ hx => hx, fun id hid => ?_, fun id hid => ?_⟩
      · rw [List.map_append, List.mem_append] at hid
        rcases hid with hold | hnew
        · exact Or.inl hold
        · rw [List.map_singleton, List.mem_singleton] at hnew
          rw [hunsent, hnew]
          exact Or.inr List.mem_cons_self
      · rw [hunsent]
        exact Or.inl (List.mem_cons_of_mem _ hid)
    | @sendOld ev todo after hstage =>
      refine ⟨Finset.Subset.refl _, fun _ hx => hx, fun _ hid => Or.inl hid, fun id hid => ?_⟩
      rw [Node.unsent, inStage_busy hserver, hstage]
      exact Or.inl hid
    | @persist after hstage =>
      refine .quiet ((inStage_busy rfl).trans ?_) rfl rfl rfl
      split_ifs <;> rfl
    | exit hstage => exact .quiet rfl rfl rfl rfl
    | done hstage => exact .quiet rfl rfl rfl rfl

/-- An event that is new and that nobody is going to send. -/
def Lost (archive : Finset String) (dedupe : Option (Finset String)) (s : Node) : Prop :=
  ∃ ev, NewTo archive dedupe s ev ∧ ev.id ∉ s.unsent.map NostrEvent.id

/-- What is lost stays so: the archive has it, and so nobody takes it for new again. -/
theorem lost_step (h : Lost archive dedupe s) {a : Act}
    (hstep : step lib batchLines up s a = some s') : Lost archive dedupe s' := by
  obtain ⟨ev, hnew, hunsent⟩ := h
  have hflow := flow_step hstep
  refine ⟨ev, hnew.mono hflow.archive ?_ hflow.passed, ?_⟩
  · intro hin
    rcases hflow.sent _ hin with hsent | hto
    · exact hnew.notSent hsent
    · exact hunsent hto
  · intro hin
    rcases hflow.unsent _ hin with hto | hfresh
    · exact hunsent hto
    · exact hfresh hnew.archived

/-- A crash loses what is to be sent. -/
theorem lost_of_crash (h : Fresh archive dedupe s) (hne : s.unsent ≠ [])
    (hstep : step lib batchLines up s .crash = some s') : Lost archive dedupe s' := by
  obtain ⟨ev, rest, heq⟩ := List.exists_cons_of_ne_nil hne
  have hnew := h.unsent ev (heq ▸ List.mem_cons_self)
  cases move_of_step hstep with
  | crash hserver =>
    exact ⟨ev, hnew.mono (Finset.Subset.refl _) hnew.notSent fun _ hx => hx, List.not_mem_nil⟩
  | process hserver hmove => cases hmove

theorem not_forwarded_of_lost (h : Lost archive dedupe s) : ¬ s.AllForwarded archive dedupe := by
  obtain ⟨ev, hnew, -⟩ := h
  obtain ⟨i, hi⟩ := hnew.passed
  exact fun hall => hnew.notSent (hall i ev hi hnew.notBefore hnew.notIndexed)

end new

/-! ## No event is lost -/

section forwarding

variable {lib : ScreenLib} {batchLines : ℕ} {up : Upload} {archive : Finset String}
  {dedupe : Option (Finset String)} {s s' : Node} {job job' : Job} {p : Process}

open Node

/-- Screened again, the line gives the event again. -/
def Passes (lib : ScreenLib) (up : Upload) (now : ℕ) (q : ℕ × NostrEvent) : Prop :=
  ∃ bytes, up.screenedAt q.1 = some bytes ∧
    ∀ c later, now ≤ later → (screen lib c bytes later).1 = some q.2

theorem screen_later {c c' : Counts} {bytes : List UInt8} {now later : ℕ} {ev : NostrEvent}
    (h : (screen lib c bytes now).1 = some ev) (hle : now ≤ later) :
    (screen lib c' bytes later).1 = some ev := by
  unfold screen at *
  cases hparse : lib.parse bytes with
  | none =>
    rw [hparse] at h
    cases h
  | some ev' =>
    rw [hparse] at h
    dsimp only at h ⊢
    split_ifs at h with hverified hephemeral hfuture
    have hfuture' : ¬ later + FUTURE_SLACK_SECS < ev'.createdAt := by omega
    rw [if_neg hverified, if_neg hephemeral, if_neg hfuture']
    exact h

theorem Passes.later {now later : ℕ} {q : ℕ × NostrEvent} (h : Passes lib up now q)
    (hle : now ≤ later) : Passes lib up later q := by
  obtain ⟨bytes, hbytes, hscreen⟩ := h
  exact ⟨bytes, hbytes, fun c t ht => hscreen c t (hle.trans ht)⟩

/-- Where every event is that passed the screening: it was reached, or is held, or its line waits or
is still to be read. -/
structure Forwarding (lib : ScreenLib) (up : Upload) (archive : Finset String)
    (dedupe : Option (Finset String)) (s : Node) : Prop where
  passes : ∀ q ∈ s.passed, Passes lib up s.clock q
  archived : ∀ id ∈ s.archive, s.Reached archive dedupe id ∨ id ∈ s.unsent.map NostrEvent.id
  indexed : ∀ ids, s.dedupe = some ids → ∀ id ∈ ids, s.Reached archive dedupe id
  refused : ∀ ev ∈ s.refused, s.Reached archive dedupe ev.id
  distinct : (s.chosen.map NostrEvent.id).Nodup
  disk : ∀ q ∈ s.passed, s.Reached archive dedupe q.2.id ∨ s.disk.cursor ≤ q.1
  job : ∀ q ∈ s.passed, s.Reached archive dedupe q.2.id ∨ q.2.id ∈ s.held.map NostrEvent.id ∨
    q.1 ∈ s.waiting.map Line.number ∨ s.job.cursor ≤ q.1

/-- Two states with the same stores. -/
structure SameStores (s s' : Node) : Prop where
  archive : s'.archive = s.archive
  dedupe : s'.dedupe = s.dedupe
  clock : s'.clock = s.clock
  passed : s'.passed = s.passed
  sent : s'.sent = s.sent

theorem SameStores.reached (h : SameStores s s') (id : String) :
    s'.Reached archive dedupe id ↔ s.Reached archive dedupe id := by
  rw [Reached, Reached, h.sent]

/-- Nothing is held before and after. -/
theorem Forwarding.quiet (h : Forwarding lib up archive dedupe s) (hstores : SameStores s s')
    (hunsent : s.unsent = []) (hrefused : s'.refused = []) (hchosen : s'.chosen = [])
    (hdisk : ∀ q ∈ s.passed, s.Reached archive dedupe q.2.id ∨ s'.disk.cursor ≤ q.1)
    (hjob : ∀ q ∈ s.passed, s.Reached archive dedupe q.2.id ∨
      q.1 ∈ s'.waiting.map Line.number ∨ s'.job.cursor ≤ q.1) :
    Forwarding lib up archive dedupe s' where
  passes := by
    rw [hstores.passed, hstores.clock]
    exact h.passes
  archived := by
    intro id hid
    rw [hstores.archive] at hid
    rw [hstores.reached]
    rcases h.archived id hid with hreached | hin
    · exact Or.inl hreached
    · rw [hunsent] at hin
      cases hin
  indexed := by
    intro ids hids id hid
    rw [hstores.dedupe] at hids
    rw [hstores.reached]
    exact h.indexed ids hids id hid
  refused := by
    rw [hrefused]
    nofun
  distinct := by
    rw [hchosen]
    exact List.nodup_nil
  disk := by
    intro q hq
    rw [hstores.passed] at hq
    rw [hstores.reached]
    exact hdisk q hq
  job := by
    intro q hq
    rw [hstores.passed] at hq
    rw [hstores.reached]
    exact (hjob q hq).imp_right Or.inr

theorem uniqueEvents_nodup (inBatch : Finset String) (evs : List NostrEvent) :
    ((uniqueEvents inBatch evs).1.map NostrEvent.id).Nodup ∧
      ∀ ev ∈ (uniqueEvents inBatch evs).1, ev.id ∉ inBatch := by
  induction evs generalizing inBatch with
  | nil => exact ⟨List.nodup_nil, nofun⟩
  | cons x evs ih =>
    rw [uniqueEvents]
    split
    · exact ih inBatch
    · next hx =>
      obtain ⟨hnodup, hnot⟩ := ih (insert x.id inBatch)
      refine ⟨List.nodup_cons.mpr ⟨?_, hnodup⟩, ?_⟩
      · intro hin
        obtain ⟨y, hy, heq⟩ := List.mem_map.mp hin
        exact hnot y hy (heq ▸ Finset.mem_insert_self _ _)
      · intro ev hev
        rcases List.mem_cons.mp hev with rfl | hrest
        · exact hx
        · exact fun hin => hnot ev hrest (Finset.mem_insert_of_mem hin)

/-- No id is left out. -/
theorem mem_uniqueEvents {inBatch : Finset String} {evs : List NostrEvent} {id : String}
    (h : id ∈ evs.map NostrEvent.id) :
    id ∈ inBatch ∨ id ∈ (uniqueEvents inBatch evs).1.map NostrEvent.id := by
  induction evs generalizing inBatch with
  | nil => cases h
  | cons x evs ih =>
    rw [uniqueEvents]
    rw [List.map_cons] at h
    split
    · next hx =>
      rcases List.mem_cons.mp h with rfl | hrest
      · exact Or.inl hx
      · exact ih hrest
    · rcases List.mem_cons.mp h with rfl | hrest
      · exact Or.inr List.mem_cons_self
      · rcases @ih (insert x.id inBatch) hrest with hin | hin
        · rcases Finset.mem_insert.mp hin with rfl | hin
          · exact Or.inr List.mem_cons_self
          · exact Or.inl hin
        · exact Or.inr (List.mem_cons_of_mem _ hin)

/-- Where nothing is held, what is not reached waits or is yet to be read. -/
theorem Forwarding.notHeld (h : Forwarding lib up archive dedupe s)
    (hserver : s.server = .busy job p) (hheld : p.stage.held = []) :
    ∀ q ∈ s.passed, s.Reached archive dedupe q.2.id ∨ q.1 ∈ p.waiting.map Line.number ∨
      job.cursor ≤ q.1 := by
  have hjob := h.job
  rw [Node.held, inStage_busy hserver, waiting_busy hserver, job_busy hserver, hheld] at hjob
  intro q hq
  rcases hjob q hq with hreached | hin | hrest
  · exact Or.inl hreached
  · cases hin
  · exact Or.inr hrest

/-- When a batch is through, what is not reached is yet to be read. -/
theorem Forwarding.past (h : Forwarding lib up archive dedupe s) (hsound : s.Sound up)
    (hserver : s.server = .busy job p) (hread : p.stage ≠ .reading)
    (hheld : p.stage.held = []) (hscreened : p.stage.unscreened = []) :
    ∀ q ∈ s.passed, s.Reached archive dedupe q.2.id ∨ job.cursor ≤ q.1 := by
  intro q hq
  rcases h.notHeld hserver hheld q hq with hreached | hwaits | hle
  · exact Or.inl hreached
  · rw [Process.waiting, hsound.batch _ _ hserver hread, hscreened] at hwaits
    cases hwaits
  · exact Or.inr hle

/-- Between the screening and the end of a batch: what is held is held on, or reached. -/
theorem Forwarding.job_stage (h : Forwarding lib up archive dedupe s)
    (hserver : s.server = .busy job p) {st : Stage}
    (hserver' : s'.server = .busy job' { p with stage := st }) (hcursor : job'.cursor = job.cursor)
    (hpassed : s'.passed = s.passed) (hst : st.unscreened = p.stage.unscreened)
    (hmono : ∀ id, s.Reached archive dedupe id → s'.Reached archive dedupe id)
    (hheld : ∀ id ∈ p.stage.held.map NostrEvent.id,
      s'.Reached archive dedupe id ∨ id ∈ st.held.map NostrEvent.id) :
    ∀ q ∈ s'.passed, s'.Reached archive dedupe q.2.id ∨ q.2.id ∈ s'.held.map NostrEvent.id ∨
      q.1 ∈ s'.waiting.map Line.number ∨ s'.job.cursor ≤ q.1 := by
  have hjob := h.job
  rw [Node.held, inStage_busy hserver, waiting_busy hserver, job_busy hserver,
    Process.waiting] at hjob
  rw [Node.held, inStage_busy hserver', waiting_busy hserver', job_busy hserver', Process.waiting,
    hst, hcursor, hpassed]
  intro q hq
  rcases hjob q hq with hreached | hin | hrest
  · exact Or.inl (hmono _ hreached)
  · exact (hheld _ hin).imp_right Or.inl
  · exact Or.inr (Or.inr hrest)

/-- Where nothing is to be sent, the archive has what was reached. -/
theorem Forwarding.archived_reached (h : Forwarding lib up archive dedupe s)
    (hunsent : s.unsent = []) :
    ∀ id ∈ s.archive, s.Reached archive dedupe id := by
  intro id hid
  have hin := h.archived id hid
  rw [hunsent] at hin
  exact hin.resolve_right List.not_mem_nil

/-- The next item is read, or there is none. -/
theorem Forwarding.turn (h : Forwarding lib up archive dedupe s) (hsound : s.Sound up)
    (hserver : s.server = .busy job p) (hstage : p.stage = .reading) :
    Forwarding lib up archive dedupe
      { s with server := .busy (p.turn batchLines job).1 (p.turn batchLines job).2 } := by
  have hblank := @turn_blank job p hstage batchLines
  have hunsent : s.unsent = [] := by
    rw [Node.unsent, inStage_busy hserver, hstage]
    rfl
  have hjob := h.notHeld hserver (by rw [hstage]; rfl)
  refine h.quiet ⟨rfl, rfl, rfl, rfl, rfl⟩ hunsent hblank.refused hblank.chosen h.disk ?_
  rw [job_busy rfl, waiting_busy rfl]
  rcases @turn_cases job p batchLines with ⟨-, hj, hp⟩ |
    ⟨item, unread, c, hcons, hscreened, hj, hp, -⟩ | ⟨item, unread, bytes, hcons, -, hj, hp⟩
  · rw [hj, hp, flush_waiting hstage]
    exact hjob
  · rw [hj, hp]
    intro q hq
    rcases hjob q hq with hreached | hwaits | hle
    · exact Or.inl hreached
    · exact Or.inr (Or.inl hwaits)
    -- the item gives no line, and so no event of it has passed
    · refine Or.inr (Or.inr (Nat.succ_le_of_lt (lt_of_le_of_ne hle ?_)))
      rintro heq
      obtain ⟨bytes, hbytes, -⟩ := h.passes q hq
      rw [Upload.screenedAt, ← heq, (hsound.next hserver hcons).1, Option.bind_some,
        hscreened] at hbytes
      cases hbytes
  · rw [hj, hp, @push_waiting { p with unread := unread } _ _ hstage, List.map_append]
    intro q hq
    rcases hjob q hq with hreached | hwaits | hle
    · exact Or.inl hreached
    · exact Or.inr (Or.inl (List.mem_append_left _ hwaits))
    · rcases hle.lt_or_eq with hlt | heq
      · exact Or.inr (Or.inr hlt)
      · exact Or.inr (Or.inl (List.mem_append_right _ (heq ▸ List.mem_cons_self)))

/-- A line is screened. -/
theorem Forwarding.screened (h : Forwarding lib up archive dedupe s) (hsound : s.Sound up)
    (hserver : s.server = .busy job p) {slots : List (Line × Option (Option NostrEvent))}
    {after : After} {i now : ℕ} {line : Line} (hstage : p.stage = .screening slots after)
    (hi : slots[i]? = some (line, none)) (hclock : s.clock ≤ now) {given : Option NostrEvent}
    (hgiven : (screen lib job.counts line.bytes now).1 = given) (c : Counts) :
    Forwarding lib up archive dedupe
      { s with
        clock := now
        handed := s.handed ++ [line.number]
        passed := s.passed ++ (given.map fun ev => (line.number, ev)).toList
        server := .busy { job with counts := c }
          { p with stage := .screening (slots.set i (line, some given)) after } } := by
  have hjob := h.job
  rw [Node.held, inStage_busy hserver, waiting_busy hserver, job_busy hserver, hstage] at hjob
  have hunsent : s.unsent = [] := by
    rw [Node.unsent, inStage_busy hserver, hstage]
    rfl
  have hline : line ∈ s.waiting := by
    rw [waiting_busy hserver, Process.waiting, hstage]
    refine List.mem_append_right _ ?_
    exact (@unscreened_set slots after i line hi none).mem_iff.mpr List.mem_cons_self
  have hbytes := hsound.lines line hline
  have hheld := @held_screened slots after i line hi given
  have hwaiting := @unscreened_set slots after i line hi given
  have hnew : ∀ q ∈ (given.map fun ev => (line.number, ev)).toList,
      q.1 = line.number ∧ given = some q.2 := by
    intro q hq
    rw [Option.mem_toList, Option.map_eq_some_iff] at hq
    obtain ⟨ev, hev, rfl⟩ := hq
    exact ⟨rfl, hev⟩
  have hgives : ∀ ev, given = some ev →
      ev.id ∈ (Stage.screening (slots.set i (line, some given)) after).held.map NostrEvent.id := by
    intro ev hev
    refine List.mem_map_of_mem (hheld.mem_iff.mpr (List.mem_append_left _ ?_))
    rw [hev]
    exact List.mem_cons_self
  refine ⟨?_, fun id hid => Or.inl (h.archived_reached hunsent id hid), h.indexed,
    List.forall_mem_nil _, List.nodup_nil, ?_, ?_⟩
  · intro q hq
    rcases List.mem_append.mp hq with hold | hq
    · exact (h.passes q hold).later hclock
    · obtain ⟨hnumber, hev⟩ := hnew q hq
      exact ⟨line.bytes, hnumber ▸ hbytes, fun c later hle => screen_later (hgiven.trans hev) hle⟩
  · intro q hq
    rcases List.mem_append.mp hq with hold | hq
    · exact h.disk q hold
    · rw [(hnew q hq).1]
      exact Or.inr (hsound.unsaved line hline)
  · rw [Node.held, inStage_busy rfl, waiting_busy rfl, job_busy rfl]
    intro q hq
    rcases List.mem_append.mp hq with hold | hq
    · rcases hjob q hold with hreached | hin | hwaits | hle
      · exact Or.inl hreached
      · refine Or.inr (Or.inl ?_)
        rw [(hheld.map NostrEvent.id).mem_iff, List.map_append]
        exact List.mem_append_right _ hin
      · rw [Process.waiting, hstage, List.map_append, List.mem_append,
          (hwaiting.map Line.number).mem_iff, List.map_cons, List.mem_cons] at hwaits
        rw [Process.waiting, List.map_append, List.mem_append]
        rcases hwaits with hbatch | hthis | hstill
        · exact Or.inr (Or.inr (Or.inl (Or.inl hbatch)))
        -- an event of this line passes again
        · obtain ⟨bytes, hq', hscreen⟩ := h.passes q hold
          rw [hthis, hbytes] at hq'
          cases hq'
          exact Or.inr (Or.inl (hgives q.2 (hgiven.symm.trans (hscreen _ _ hclock))))
        · exact Or.inr (Or.inr (Or.inl (Or.inr hstill)))
      · exact Or.inr (Or.inr (Or.inr hle))
    · exact Or.inr (Or.inl (hgives q.2 (hnew q hq).2))

/-- The events that are left are chosen. -/
theorem Forwarding.deduped (h : Forwarding lib up archive dedupe s)
    (hserver : s.server = .busy job p) {slots : List (Line × Option (Option NostrEvent))}
    {after : After} (hstage : p.stage = .screening slots after)
    (hall : ∀ slot ∈ slots, slot.2.isSome = true) (c : Counts) :
    Forwarding lib up archive dedupe
      { s with
        server := .busy { job with counts := c }
          { p with
            stage := .saving
              (((uniqueEvents ∅ (slots.filterMap fun slot => slot.2.join)).1.filter
                fun ev => !s.known ev).map fun ev => (ev, none)) after } } := by
  have hunsent : s.unsent = [] := by
    rw [Node.unsent, inStage_busy hserver, hstage]
    rfl
  have hkept : ∀ evs : List NostrEvent,
      (evs.map fun ev => (ev, (none : Option SaveEventStatus))).map Prod.fst = evs := by
    intro evs
    rw [List.map_map]
    exact List.map_id _
  refine ⟨h.passes, fun id hid => Or.inl (h.archived_reached hunsent id hid), h.indexed, ?_, ?_,
    h.disk, h.job_stage hserver rfl rfl rfl ?_ (fun _ hid => hid) ?_⟩
  · rw [Node.refused, inStage_busy rfl, refused_none]
    nofun
  · rw [Node.chosen, inStage_busy rfl, Stage.chosen, hkept]
    exact ((uniqueEvents_nodup ∅ _).1.sublist (List.filter_sublist.map _))
  · rw [hstage, unscreened_filled hall]
    rfl
  · intro id hin
    rw [hstage] at hin
    rw [Stage.held, hkept]
    obtain ⟨ev, hev, rfl⟩ := List.mem_map.mp
      ((@mem_uniqueEvents ∅ _ _ hin).resolve_left (Finset.notMem_empty _))
    cases hknown : s.known ev with
    | true =>
      rw [Node.known, Option.any_eq_true] at hknown
      obtain ⟨ids, hids, hmem⟩ := hknown
      exact Or.inl (h.indexed ids hids ev.id (of_decide_eq_true hmem))
    | false =>
      refine Or.inr (List.mem_map_of_mem ?_)
      rw [List.mem_filter, hknown]
      exact ⟨hev, rfl⟩

/-- The archive answers. -/
theorem Forwarding.save (h : Forwarding lib up archive dedupe s)
    (hserver : s.server = .busy job p) {slots : List (NostrEvent × Option SaveEventStatus)}
    {after : After} {i : ℕ} {ev : NostrEvent} (hstage : p.stage = .saving slots after)
    (hi : slots[i]? = some (ev, none)) :
    Forwarding lib up archive dedupe
      { s with
        archive := (saveEvent s.archive ev).2
        server := .busy job
          { p with
            stage := .saving (slots.set i (ev, some (saveEvent s.archive ev).1)) after } } := by
  have hrefused := h.refused
  have hdistinct := h.distinct
  have harchived := h.archived
  rw [Node.refused, inStage_busy hserver, hstage] at hrefused
  rw [Node.chosen, inStage_busy hserver, hstage] at hdistinct
  rw [Node.unsent, inStage_busy hserver, hstage] at harchived
  have hnew := @unsent_set slots after i ev hi (saveEvent s.archive ev).1
  have hold := @refused_set slots after i ev hi (saveEvent s.archive ev).1
  refine ⟨h.passes, ?_, h.indexed, ?_, ?_, h.disk,
    h.job_stage hserver rfl rfl rfl (by rw [hstage]; rfl) (fun _ hid => hid) ?_⟩
  · rw [Node.unsent, inStage_busy rfl]
    intro id hid
    rw [(hnew.map NostrEvent.id).mem_iff, List.map_append, List.mem_append]
    rw [Delivery.saveEvent_archive, Finset.mem_insert] at hid
    by_cases hin : id ∈ s.archive
    · exact (harchived id hin).imp_right Or.inr
    · have hid' : id = ev.id := hid.resolve_right hin
      rw [if_pos (Delivery.saveEvent_success.mpr (hid' ▸ hin))]
      exact Or.inr (Or.inl (hid' ▸ List.mem_cons_self))
  · rw [Node.refused, inStage_busy rfl]
    intro x hx
    rw [hold.mem_iff, List.mem_append] at hx
    rcases hx with hthis | hx
    · split_ifs at hthis with hduplicate
      · rw [List.mem_singleton] at hthis
        subst hthis
        have hin : x.id ∈ s.archive := by
          by_contra hout
          rw [Delivery.saveEvent_success.mpr hout] at hduplicate
          cases hduplicate
        exact (harchived x.id hin).resolve_right (not_unsent_of_slot hi hdistinct)
      · cases hthis
    · exact hrefused x hx
  · rw [Node.chosen, inStage_busy rfl, Stage.chosen, chosen_set hi]
    exact hdistinct
  · intro id hin
    rw [hstage] at hin
    rw [Stage.held, chosen_set hi]
    exact Or.inr hin

/-- All answers are there. -/
theorem Forwarding.saved (h : Forwarding lib up archive dedupe s)
    (hserver : s.server = .busy job p) {slots : List (NostrEvent × Option SaveEventStatus)}
    {after : After} (hstage : p.stage = .saving slots after)
    (hall : ∀ slot ∈ slots, slot.2.isSome = true) :
    Forwarding lib up archive dedupe
      { s with server := .busy job { p with stage := .sending (answers slots) after } } := by
  have hrefused := h.refused
  have harchived := h.archived
  rw [Node.refused, inStage_busy hserver, hstage] at hrefused
  rw [Node.unsent, inStage_busy hserver, hstage] at harchived
  refine ⟨h.passes, ?_, h.indexed, ?_, List.nodup_nil, h.disk,
    h.job_stage hserver rfl rfl rfl (by rw [hstage]; rfl) (fun _ hid => hid) ?_⟩
  · rw [Node.unsent, inStage_busy rfl, unsent_saved]
    exact harchived
  · rw [Node.refused, inStage_busy rfl, refused_saved]
    exact hrefused
  · intro id hin
    rw [hstage] at hin
    have hheld : (Stage.sending (answers slots) after).held = (Stage.saving slots after).held :=
      held_saved hall
    rw [hheld]
    exact Or.inr hin

/-- An event is sent. -/
theorem Forwarding.sendNew (h : Forwarding lib up archive dedupe s)
    (hserver : s.server = .busy job p) {ev : NostrEvent}
    {todo : List (NostrEvent × SaveEventStatus)} {after : After}
    (hstage : p.stage = .sending ((ev, .success) :: todo) after) (c : Counts) :
    Forwarding lib up archive dedupe
      { s with
        sent := s.sent ++ [ev]
        server := .busy { job with counts := c } { p with stage := .sending todo after } } := by
  have hrefused := h.refused
  have hunsent : s.unsent = ev :: (Stage.sending todo after).unsent := by
    rw [Node.unsent, inStage_busy hserver, hstage]
    rfl
  rw [Node.refused, inStage_busy hserver, hstage] at hrefused
  have hmono : ∀ id, s.Reached archive dedupe id →
      Node.Reached archive dedupe { s with sent := s.sent ++ [ev] } id := by
    intro id hid
    refine hid.imp_right (Or.imp_right fun hin => ?_)
    rw [List.map_append]
    exact List.mem_append_left _ hin
  have hsent : Node.Reached archive dedupe { s with sent := s.sent ++ [ev] } ev.id := by
    refine Or.inr (Or.inr ?_)
    rw [List.map_append]
    exact List.mem_append_right _ List.mem_cons_self
  refine ⟨h.passes, ?_, fun ids hids id hid => hmono id (h.indexed ids hids id hid),
    fun x hx => hmono x.id (hrefused x hx), List.nodup_nil,
    fun q hq => (h.disk q hq).imp_left (hmono q.2.id),
    h.job_stage hserver rfl rfl rfl (by rw [hstage]; rfl) hmono ?_⟩
  · intro id hid
    rcases h.archived id hid with hreached | hto
    · exact Or.inl (hmono id hreached)
    · rw [hunsent] at hto
      rcases List.mem_cons.mp hto with rfl | hrest
      · exact Or.inl hsent
      · exact Or.inr hrest
  · intro id hin
    rw [hstage] at hin
    rcases List.mem_cons.mp hin with rfl | hrest
    · exact Or.inl hsent
    · exact Or.inr hrest

/-- An event that the archive had already is passed over. -/
theorem Forwarding.sendOld (h : Forwarding lib up archive dedupe s)
    (hserver : s.server = .busy job p) {ev : NostrEvent}
    {todo : List (NostrEvent × SaveEventStatus)} {after : After}
    (hstage : p.stage = .sending ((ev, .duplicate) :: todo) after) (c : Counts) :
    Forwarding lib up archive dedupe
      { s with
        server := .busy { job with counts := c } { p with stage := .sending todo after } } := by
  have hrefused := h.refused
  have harchived := h.archived
  rw [Node.refused, inStage_busy hserver, hstage] at hrefused
  rw [Node.unsent, inStage_busy hserver, hstage] at harchived
  obtain ⟨hreached, hrest⟩ := List.forall_mem_cons.mp hrefused
  refine ⟨h.passes, harchived, h.indexed, hrest, List.nodup_nil, h.disk,
    h.job_stage hserver rfl rfl rfl (by rw [hstage]; rfl) (fun _ hid => hid) ?_⟩
  intro id hin
  rw [hstage] at hin
  rcases List.mem_cons.mp hin with rfl | hin
  · exact Or.inl hreached
  · exact Or.inr hin

theorem forwarding_step (hsound : s.Sound up) (h : Forwarding lib up archive dedupe s) {a : Act}
    (ha : a = .crash → s.unsent = []) (hstep : step lib batchLines up s a = some s') :
    Forwarding lib up archive dedupe s' := by
  cases move_of_step hstep with
  | load hserver =>
    refine h.quiet ⟨rfl, rfl, rfl, rfl, rfl⟩ (inStage_rest (by simp [hserver])) rfl rfl h.disk ?_
    exact fun q hq => (h.disk q hq).imp_right Or.inr
  | claim hserver hphase hfile =>
    have hdisk := hsound.idle _ hserver
    refine h.quiet ⟨rfl, rfl, rfl, rfl, rfl⟩ (inStage_rest (by simp [hserver])) rfl rfl ?_ ?_
    · rw [hdisk]
      exact h.disk
    · rw [hdisk]
      exact fun q hq => (h.disk q hq).imp_right Or.inr
  | lost hserver hphase hfile =>
    have hdisk := hsound.idle _ hserver
    refine h.quiet ⟨rfl, rfl, rfl, rfl, rfl⟩ (inStage_rest (by simp [hserver])) rfl rfl ?_ ?_
    · rw [hdisk]
      exact h.disk
    · rw [hdisk]
      exact fun q hq => (h.disk q hq).imp_right Or.inr
  | rest hserver =>
    refine h.quiet ⟨rfl, rfl, rfl, rfl, rfl⟩ (inStage_rest (by simp [hserver])) rfl rfl h.disk ?_
    exact fun q hq => (h.disk q hq).imp_right Or.inr
  | crash hserver =>
    -- nothing that was saved had still to be sent
    refine h.quiet ⟨rfl, rfl, rfl, rfl, rfl⟩ (ha rfl) rfl rfl h.disk ?_
    exact fun q hq => (h.disk q hq).imp_right Or.inr
  | @record ids hids =>
    refine ⟨h.passes, h.archived, ?_, h.refused, h.distinct, h.disk, h.job⟩
    intro known hknown id hid
    obtain ⟨old, hold, rfl⟩ := Option.map_eq_some_iff.mp hknown
    rcases Finset.mem_union.mp hid with hin | hin
    · exact h.indexed old hold id hin
    · exact Or.inr (Or.inr (List.mem_toFinset.mp (hids hin)))
  | @process job p a s' hserver hmove =>
    have hunsent : s.unsent = p.stage.unsent := inStage_busy hserver
    cases hmove with
    | turn hstage => exact h.turn hsound hserver hstage
    | stop hstage =>
      have hblank := @flush_blank p .stopped
      rw [hstage] at hunsent
      refine h.quiet ⟨rfl, rfl, rfl, rfl, rfl⟩ hunsent hblank.refused hblank.chosen h.disk ?_
      rw [job_busy rfl, waiting_busy rfl, flush_waiting hstage]
      exact h.notHeld hserver (by rw [hstage]; rfl)
    | screen hstage hi hclock => exact h.screened hsound hserver hstage hi hclock rfl _
    | dedupe hstage hall => exact h.deduped hserver hstage hall _
    | save hstage hi => exact h.save hserver hstage hi
    | saved hstage hall => exact h.saved hserver hstage hall
    | sendNew hstage => exact h.sendNew hserver hstage _
    | sendOld hstage => exact h.sendOld hserver hstage _
    | @persist after hstage =>
      have hpast := h.past hsound hserver (by rw [hstage]; nofun) (by rw [hstage]; rfl)
        (by rw [hstage]; rfl)
      have hblank : (if after = .more then Stage.reading else .returning after).Blank := by
        split_ifs <;> exact ⟨rfl, rfl, rfl, rfl⟩
      rw [hstage] at hunsent
      refine h.quiet ⟨rfl, rfl, rfl, rfl, rfl⟩ hunsent hblank.refused hblank.chosen hpast ?_
      rw [job_busy rfl]
      exact fun q hq => (hpast q hq).imp_right Or.inr
    | exit hstage =>
      have hpast := h.past hsound hserver (by rw [hstage]; nofun) (by rw [hstage]; rfl)
        (by rw [hstage]; rfl)
      rw [hstage] at hunsent
      refine h.quiet ⟨rfl, rfl, rfl, rfl, rfl⟩ hunsent rfl rfl hpast ?_
      exact fun q hq => (hpast q hq).imp_right Or.inr
    | done hstage =>
      have hpast := h.past hsound hserver (by rw [hstage]; nofun) (by rw [hstage]; rfl)
        (by rw [hstage]; rfl)
      rw [hstage] at hunsent
      refine h.quiet ⟨rfl, rfl, rfl, rfl, rfl⟩ hunsent rfl rfl hpast ?_
      exact fun q hq => (hpast q hq).imp_right Or.inr

/-! ## Every event is sent, or one is lost -/

theorem fresh_start {clock : ℕ} : Fresh archive dedupe (start archive dedupe clock) where
  archived := Finset.Subset.refl _
  indexed := fun ids hids => ⟨ids, hids, Finset.Subset.refl _⟩
  sent := nofun
  held := nofun
  chosen := nofun
  unsent := nofun
  nodup := List.nodup_nil

theorem forwarding_start {clock : ℕ} :
    Forwarding lib up archive dedupe (start archive dedupe clock) where
  passes := nofun
  archived := fun _ hid => Or.inl (Or.inl hid)
  indexed := fun ids hids _ hid => Or.inr (Or.inl ⟨ids, hids, hid⟩)
  refused := nofun
  distinct := List.nodup_nil
  disk := nofun
  job := nofun

/-- **What a resumed submission forwards.** When the job is done, every event that passed the
screening, and was neither archived nor indexed before, was sent to the writer, if and only if no
crash came while the archive had taken an event of the batch as new that was not sent yet. -/
theorem resumed_forwards_all_iff {clock : ℕ} {as : List Act}
    (hrun : run (step lib batchLines up) (start archive dedupe clock) as = some s)
    (hdone : s.disk.phase = .done) :
    s.AllForwarded archive dedupe ↔
      Along (step lib batchLines up) (fun s a => a = .crash → s.unsent = [])
        (start archive dedupe clock) as := by
  constructor
  · intro hall
    have hleft := @along_or_left _ _ (step lib batchLines up)
      (fun s a => a = .crash → s.unsent = []) (Fresh archive dedupe) (Lost archive dedupe)
      (fun _ _ _ h hstep => fresh_step h hstep) ?_ (fun _ _ _ _ h hstep => lost_step h hstep)
      _ _ _ fresh_start hrun
    · exact hleft.resolve_right fun hlost => not_forwarded_of_lost hlost hall
    · intro s a s' h hnot hstep
      obtain ⟨rfl, hne⟩ := Classical.not_imp.mp hnot
      exact lost_of_crash h hne hstep
  · intro halong
    have hs : s.Sound up ∧ Forwarding lib up archive dedupe s :=
      @run_invariant _ _ (step lib batchLines up) (fun s a => a = .crash → s.unsent = [])
        (fun s => s.Sound up ∧ Forwarding lib up archive dedupe s)
        (fun _ _ _ h ha hstep => ⟨sound_step h.1 hstep, forwarding_step h.1 h.2 ha hstep⟩) _ _ _
        ⟨sound_start, forwarding_start⟩ halong hrun
    obtain ⟨-, -, hlength⟩ := numbers_done hs.1 hdone
    intro i ev hpassed hnotArchived hnotIndexed
    obtain ⟨bytes, hbytes, -⟩ := hs.2.passes _ hpassed
    have hlt : i < up.items.length := by
      by_contra hle
      rw [Upload.screenedAt, List.getElem?_eq_none (by omega)] at hbytes
      cases hbytes
    rcases hs.2.disk _ hpassed with (hbefore | ⟨ids, hids, hin⟩ | hsent) | hle
    · exact absurd hbefore hnotArchived
    · exact absurd hin (hnotIndexed ids hids)
    · exact hsent
    · exact absurd hle (by simp only; omega)

end forwarding

/-! ## A crash between the save and the send -/

/-- A signed text note, made at 2023-11-17 01:00. -/
def note : NostrEvent where
  id := "8df5405febdfb74672ea99baee3b208574bccd7f6685b518e370e360a2199cd5"
  pubkey := "f9308a019258c31049344f85f89d5229b531c845836f99b08601f113bce036f9"
  createdAt := 1700182800
  kind := 1
  tags := []
  content := "hello"
  sig := "beb05a277f7d78981a0c4b5d46500d5f3022bf9b2a952aba10e613d063a56bad" ++
    "93392e04c64d5eaaf32a995a05304657901e1d26b50d71745b9604374e7e6d87"

/-- The note as it is in the upload. -/
def noteJson : String :=
  "\x7b\"id\":\"8df5405febdfb74672ea99baee3b208574bccd7f6685b518e370e360a2199cd5\"," ++
    "\"pubkey\":\"f9308a019258c31049344f85f89d5229b531c845836f99b08601f113bce036f9\"," ++
    "\"created_at\":1700182800,\"kind\":1,\"tags\":[],\"content\":\"hello\"," ++
    "\"sig\":\"beb05a277f7d78981a0c4b5d46500d5f3022bf9b2a952aba10e613d063a56bad9" ++
    "3392e04c64d5eaaf32a995a05304657901e1d26b50d71745b9604374e7e6d87\"\x7d"

def noteUpload : Upload := .lmdb [.json noteJson.toUTF8.toList]

/-- The packages, as they answer for this upload. -/
def noteLib : ScreenLib := { parse := fun _ => some note, verified := fun _ => true }

def noteStart : Node := start ∅ none note.createdAt

/-- The note is archived. -/
def toTheSave : List Act := [.claim, .read, .screen 0 note.createdAt, .dedupe, .save 0]

/-- The job from its start on, when the note is archived already or not. -/
def toTheEnd : List Act := toTheSave ++ [.saved, .send, .persist, .read, .persist, .finish]

def noteCounts : Counts := { lines := 1, valid := 1, new := 1 }

/-- The job is done, and the note was sent. -/
def noteSent : Node where
  disk := { phase := .done, cursor := 1, counts := noteCounts }
  file := false
  server := .idle { phase := .done, cursor := 1, counts := noteCounts }
  archive := {note.id}
  dedupe := none
  clock := note.createdAt
  handed := [0]
  passed := [(0, note)]
  sent := [note]

theorem run_noteSent : run (step noteLib 1 noteUpload) noteStart toTheEnd = some noteSent := rfl

/-- Without a crash the note is sent. -/
theorem note_is_sent : noteSent.AllForwarded ∅ none := by
  have hgraceful : ∀ a ∈ toTheEnd, a ≠ .crash := by
    simp [toTheEnd, toTheSave]
  refine (resumed_forwards_all_iff run_noteSent rfl).mpr ?_
  exact (along_of_mem hgraceful).mono fun _ a ha hcrash => absurd hcrash ha

def lostCounts : Counts := { lines := 1, valid := 1, duplicate := 1 }

/-- The job is done, and the note is a duplicate. -/
def noteLost : Node where
  disk := { phase := .done, cursor := 1, counts := lostCounts }
  file := false
  server := .idle { phase := .done, cursor := 1, counts := lostCounts }
  archive := {note.id}
  dedupe := none
  clock := note.createdAt
  handed := [0, 0]
  passed := [(0, note), (0, note)]
  sent := []

/-- The server crashes when the note is saved and before it is sent: nobody ever sends it. -/
theorem saved_event_is_lost :
    run (step noteLib 1 noteUpload) noteStart (toTheSave ++ [.crash, .load] ++ toTheEnd) =
        some noteLost ∧
      noteLost.disk.phase = .done ∧ ¬ noteLost.AllForwarded ∅ none := by
  refine ⟨rfl, rfl, fun hall => ?_⟩
  have hsent := hall 0 note List.mem_cons_self (Finset.notMem_empty _) nofun
  cases hsent

end NostrSearch.Server.Submit
