import NostrSearch.Indexer.Scrape
import NostrSearch.Lib.TopK

/-!
# A day read in pages

The REQ loop against a relay with a fixed set of events, which answers with the newest `cap` of
them. Each page starts again with the whole second the last one ended in, so that events which
were cut off inside that second are on it; only in the first second of the day the loop stops
without asking again, and events are lost there (`lost_in_first_second`).
`day_read_iff_first_second_whole` says that nothing else is lost.
-/

namespace NostrSearch.Indexer

open NostrSearch.Core NostrSearch.Lib

variable {W : Type*}

/-! ## The relay -/

/-- The events of a relay. Their ids tell them apart. -/
structure RelayStore where
  events : List NostrEvent
  ids : (events.map NostrEvent.id).Nodup

namespace RelayStore

/-- The events from `lo` to `hi`, both included. -/
def within (r : RelayStore) (lo hi : ℕ) : List NostrEvent :=
  r.events.filter fun e => decide (lo ≤ e.createdAt ∧ e.createdAt ≤ hi)

theorem mem_within {r : RelayStore} {lo hi : ℕ} {e : NostrEvent} :
    e ∈ r.within lo hi ↔ e ∈ r.events ∧ lo ≤ e.createdAt ∧ e.createdAt ≤ hi := by
  rw [within, List.mem_filter, decide_eq_true_eq]

theorem nodup_within (r : RelayStore) (lo hi : ℕ) : (r.within lo hi).Nodup :=
  r.ids.of_map.filter _

theorem eq_of_id {r : RelayStore} {e e' : NostrEvent} (he : e ∈ r.events) (he' : e' ∈ r.events)
    (h : e.id = e'.id) : e = e' :=
  List.inj_on_of_nodup_map r.ids he he' h

end RelayStore

/-- The relay answers a REQ for `[since, til]` with its newest `cap` events in it. -/
def ServesNewest (net : Client W) (r : RelayStore) (cap : ℕ) : Prop :=
  ∀ since til w page w', reqOnce net (pageFilter since til) w = (.ok page, w') →
    TopBy NostrEvent.createdAt (min cap 10000) (r.within since til) page

/-- No second of the day fills a page. -/
def SecondsFit (r : RelayStore) (cap start stop : ℕ) : Prop :=
  ∀ t, start ≤ t → t < stop → (r.within t t).length < cap

theorem reqPage_ok {net : Client W} {r : RelayStore} {cap : ℕ} (h : ServesNewest net r cap)
    (hcap : cap ≤ 10000) {start stop til : ℕ} {w w' : W} {page : List NostrEvent}
    (hpage : reqPage net start stop til w = (.ok page, w')) :
    TopBy NostrEvent.createdAt cap (r.within start til) page := by
  have hnet : ∀ {w w' : W} {page : List NostrEvent},
      reqWindow net (pageFilter start til) w = (.ok page, w') →
        TopBy NostrEvent.createdAt cap (r.within start til) page := by
    intro w w' page hw
    have htop := reqWindow_ok (h start til) hw
    rwa [min_eq_left hcap] at htop
  rw [reqPage] at hpage
  split at hpage
  case h_1 w₁ h₁ =>
    split at hpage
    case isTrue => exact hnet hpage
    case isFalse =>
      cases hpage
      exact hnet h₁
  case h_2 => exact hnet hpage

/-! ## New events of a page -/

theorem mem_insertFresh_ids (ids : List String) (page : List NostrEvent) (i : String) :
    i ∈ (insertFresh ids page).2 ↔ i ∈ ids ∨ ∃ e ∈ page, e.id = i := by
  induction page generalizing ids with
  | nil => simp [insertFresh]
  | cons e page ih =>
    rw [insertFresh]
    split
    case isTrue hmem =>
      rw [ih]
      constructor
      · rintro (hi | ⟨x, hx, rfl⟩)
        · exact Or.inl hi
        · exact Or.inr ⟨x, List.mem_cons_of_mem e hx, rfl⟩
      · rintro (hi | ⟨x, hx, rfl⟩)
        · exact Or.inl hi
        · rcases List.mem_cons.mp hx with rfl | hx
          · exact Or.inl hmem
          · exact Or.inr ⟨x, hx, rfl⟩
    case isFalse =>
      show i ∈ (insertFresh (e.id :: ids) page).2 ↔ _
      rw [ih, List.mem_cons]
      constructor
      · rintro ((rfl | hi) | ⟨x, hx, rfl⟩)
        · exact Or.inr ⟨e, List.mem_cons_self, rfl⟩
        · exact Or.inl hi
        · exact Or.inr ⟨x, List.mem_cons_of_mem e hx, rfl⟩
      · rintro (hi | ⟨x, hx, rfl⟩)
        · exact Or.inl (Or.inr hi)
        · rcases List.mem_cons.mp hx with rfl | hx
          · exact Or.inl (Or.inl rfl)
          · exact Or.inr ⟨x, hx, rfl⟩

/-- The new events of a page of the relay are those whose ids were not there. -/
theorem mem_insertFresh {r : RelayStore} {page : List NostrEvent} (hpage : page ⊆ r.events)
    (ids : List String) (e : NostrEvent) :
    e ∈ (insertFresh ids page).1 ↔ e ∈ page ∧ e.id ∉ ids := by
  induction page generalizing ids with
  | nil => simp [insertFresh]
  | cons x page ih =>
    have hx : x ∈ r.events := hpage List.mem_cons_self
    have hrest : page ⊆ r.events := fun y hy => hpage (List.mem_cons_of_mem x hy)
    rw [insertFresh]
    split
    case isTrue hmem =>
      rw [ih hrest, List.mem_cons]
      constructor
      · rintro ⟨he, hid⟩
        exact ⟨Or.inr he, hid⟩
      · rintro ⟨rfl | he, hid⟩
        · exact absurd hmem hid
        · exact ⟨he, hid⟩
    case isFalse hnew =>
      show e ∈ x :: (insertFresh (x.id :: ids) page).1 ↔ _
      rw [List.mem_cons, ih hrest, List.mem_cons, List.mem_cons]
      constructor
      · rintro (rfl | ⟨he, hid⟩)
        · exact ⟨Or.inl rfl, hnew⟩
        · exact ⟨Or.inr he, fun h => hid (Or.inr h)⟩
      · rintro ⟨rfl | he, hid⟩
        · exact Or.inl rfl
        · by_cases hxe : e.id = x.id
          · exact Or.inl (RelayStore.eq_of_id (hrest he) hx hxe)
          · exact Or.inr ⟨he, fun h => h.elim hxe hid⟩

/-! ## What a turn does -/

section turns

variable {net : Client W} {sink : Sink W} {start stop : ℕ} {s s' : ReqState W}

/-- A turn that goes round again has a page with an oldest event. Either nothing on it is new, it
is all of the second `til`, and `til` is stepped back; or there are new events on it, which are
passed to the sink, and the next page ends at the oldest event of this one. -/
theorem reqTurn_again (h : reqTurn net sink start stop s = .again s') :
    ∃ page oldest w, reqPage net start stop s.til s.day.world = (.ok page, w) ∧
      (page.map NostrEvent.createdAt).min? = some oldest ∧
      s'.haveIds = (insertFresh s.haveIds page).2 ∧
      ((insertFresh s.haveIds page).1 = [] ∧ oldest = s.til ∧ start < s.til ∧
          s'.til = s.til - 1 ∧ s'.day.passed = s.day.passed ∨
        (insertFresh s.haveIds page).1 ≠ [] ∧ start < oldest ∧ s'.til = oldest ∧
          s'.day.passed = s.day.passed ++ (insertFresh s.haveIds page).1) := by
  rw [reqTurn] at h
  split at h
  case h_1 => cases h
  case h_2 page w hpage =>
    refine ⟨page, ?_⟩
    cases hmin : (page.map NostrEvent.createdAt).min? with
    | none =>
      rw [hmin] at h
      cases h
    | some oldest =>
      rw [hmin] at h
      refine ⟨oldest, w, hpage, rfl, ?_⟩
      simp only [List.isEmpty_iff] at h
      split at h
      case isTrue hfresh =>
        split at h
        case isTrue hstep =>
          cases h
          exact ⟨rfl, Or.inl ⟨hfresh, hstep.1, hstep.2, rfl, rfl⟩⟩
        case isFalse => cases h
      case isFalse hfresh =>
        split at h
        case isTrue => cases h
        case isFalse hold =>
          cases h
          exact ⟨rfl, Or.inr ⟨hfresh, not_le.mp hold, rfl, rfl⟩⟩

/-- A turn that leaves the loop with `Ok` has an empty page, or one with nothing new on it that is
not stepped past, or one with new events that reaches the start of the day. -/
theorem reqTurn_leave {d : DayRun W} (h : reqTurn net sink start stop s = .leave (.ok (), d)) :
    ∃ page w, reqPage net start stop s.til s.day.world = (.ok page, w) ∧
      (page = [] ∧ d.passed = s.day.passed ∨
        ∃ oldest, (page.map NostrEvent.createdAt).min? = some oldest ∧
          ((insertFresh s.haveIds page).1 = [] ∧ ¬ (oldest = s.til ∧ start < s.til) ∧
              d.passed = s.day.passed ∨
            (insertFresh s.haveIds page).1 ≠ [] ∧ oldest ≤ start ∧
              d.passed = s.day.passed ++ (insertFresh s.haveIds page).1)) := by
  rw [reqTurn] at h
  split at h
  case h_1 => cases h
  case h_2 page w hpage =>
    refine ⟨page, w, hpage, ?_⟩
    cases hmin : (page.map NostrEvent.createdAt).min? with
    | none =>
      rw [hmin] at h
      cases h
      rw [List.min?_eq_none_iff, List.map_eq_nil_iff] at hmin
      exact Or.inl ⟨hmin, rfl⟩
    | some oldest =>
      rw [hmin] at h
      refine Or.inr ⟨oldest, rfl, ?_⟩
      simp only [List.isEmpty_iff] at h
      split at h
      case isTrue hfresh =>
        split at h
        case isTrue => cases h
        case isFalse hstep =>
          cases h
          exact Or.inl ⟨hfresh, hstep, rfl⟩
      case isFalse hfresh =>
        split at h
        case isTrue hold =>
          cases h
          exact Or.inr ⟨hfresh, hold, rfl⟩
        case isFalse => cases h

end turns

/-! ## Between two pages -/

/-- Before the page that ends at `til`: the events above it were passed to the sink, and what was
passed are events from `til` on, the ones whose ids are kept. -/
structure Paged (r : RelayStore) (start stop : ℕ) (s : ReqState W) : Prop where
  start_le : start ≤ s.til
  til_lt : s.til < stop
  above : ∀ e ∈ r.within start (stop - 1), s.til < e.createdAt → e ∈ s.day.passed
  mem_ids : ∀ e ∈ r.events, e.id ∈ s.haveIds ↔ e ∈ s.day.passed
  passed : ∀ e ∈ s.day.passed, e ∈ r.events ∧ s.til ≤ e.createdAt

section page

variable {r : RelayStore} {cap start stop : ℕ} {s : ReqState W} {page : List NostrEvent}
  {oldest : ℕ}

private theorem page_events (h : TopBy NostrEvent.createdAt cap (r.within start s.til) page) :
    page ⊆ r.events := fun _ he => (RelayStore.mem_within.mp (h.subset he)).1

/-- The whole page has been passed, with its new events. -/
theorem Paged.page_passed (hs : Paged r start stop s)
    (h : TopBy NostrEvent.createdAt cap (r.within start s.til) page) :
    page ⊆ s.day.passed ++ (insertFresh s.haveIds page).1 := by
  intro e he
  rw [List.mem_append]
  by_cases hid : e.id ∈ s.haveIds
  · exact Or.inl ((hs.mem_ids e (page_events h he)).mp hid)
  · exact Or.inr ((mem_insertFresh (page_events h) s.haveIds e).mpr ⟨he, hid⟩)

/-- A page of one second is all there is up to that second. -/
theorem page_of_second (hfit : SecondsFit r cap start stop) (hs : Paged r start stop s)
    (h : TopBy NostrEvent.createdAt cap (r.within start s.til) page)
    (hmin : (page.map NostrEvent.createdAt).min? = some s.til) : r.within start s.til ⊆ page := by
  have hone : page ⊆ r.within s.til s.til := by
    intro e he
    have hle : s.til ≤ e.createdAt :=
      (List.min?_eq_some_iff.mp hmin).2 _ (List.mem_map_of_mem he)
    obtain ⟨hev, _, hge⟩ := RelayStore.mem_within.mp (h.subset he)
    exact RelayStore.mem_within.mpr ⟨hev, hle, hge⟩
  have hlen : page.length ≤ (r.within s.til s.til).length := (h.nodup.subperm hone).length_le
  have hlt : (r.within s.til s.til).length < cap := hfit s.til hs.start_le hs.til_lt
  have hpage : page.length = min cap (r.within start s.til).length := h.length_eq
  exact h.subset_of_length (by omega)

/-- A page with nothing new on it is all of the second it ends in. -/
theorem Paged.oldest_of_no_fresh (hs : Paged r start stop s)
    (h : TopBy NostrEvent.createdAt cap (r.within start s.til) page)
    (hmin : (page.map NostrEvent.createdAt).min? = some oldest)
    (hfresh : (insertFresh s.haveIds page).1 = []) : oldest = s.til := by
  obtain ⟨hmem, _⟩ := List.min?_eq_some_iff.mp hmin
  obtain ⟨e, he, rfl⟩ := List.mem_map.mp hmem
  have hpassed : e ∈ s.day.passed := by
    have hall := hs.page_passed h he
    rwa [hfresh, List.append_nil] at hall
  have hge : s.til ≤ e.createdAt := (hs.passed e hpassed).2
  have hle : e.createdAt ≤ s.til := (RelayStore.mem_within.mp (h.subset he)).2.2
  exact le_antisymm hle hge

end page

/-! ## The first second of the day -/

/-- Whether the page that reaches the first second of the day holds all of it, counting back from
`til` in pages of `cap` events, each from the last second of the one before. -/
def firstSecondWhole (r : RelayStore) (cap start til : ℕ) : Bool :=
  match lastKey NostrEvent.createdAt cap (r.within start til) with
  | none => true
  | some oldest =>
    if oldest ≤ start then decide ((r.within start til).length ≤ cap)
    else if oldest < til then firstSecondWhole r cap start oldest
    else true
termination_by til

/-- The day is complete. -/
def DayRead (r : RelayStore) (start stop : ℕ) (d : DayRun W) : Prop :=
  ∀ e ∈ r.events, start ≤ e.createdAt → e.createdAt < stop → e ∈ d.passed

section loop

variable {net : Client W} {sink : Sink W} {r : RelayStore} {cap start stop : ℕ}

/-- The events whose ids are not there yet. -/
def unseen (r : RelayStore) (ids : List String) : List NostrEvent :=
  r.events.filter fun e => decide (e.id ∉ ids)

/-- The loop lowers the number of unseen events, or keeps it and steps `til` back. -/
def variant (r : RelayStore) (s : ReqState W) : ℕ ×ₗ ℕ :=
  toLex ((unseen r s.haveIds).length, s.til)

private theorem unseen_sublist (r : RelayStore) (ids : List String) (page : List NostrEvent) :
    (unseen r (insertFresh ids page).2).Sublist (unseen r ids) := by
  apply List.monotone_filter_right
  intro e he
  rw [decide_eq_true_eq, mem_insertFresh_ids] at he
  exact decide_eq_true fun hid => he (Or.inl hid)

/-- New events are fewer unseen ones. -/
private theorem unseen_lt {page : List NostrEvent} (hpage : page ⊆ r.events) (ids : List String)
    (hfresh : (insertFresh ids page).1 ≠ []) :
    (unseen r (insertFresh ids page).2).length < (unseen r ids).length := by
  have hsub := unseen_sublist r ids page
  by_contra hlen
  have heq := hsub.eq_of_length (le_antisymm hsub.length_le (not_lt.mp hlen))
  obtain ⟨e, he⟩ := List.exists_mem_of_ne_nil _ hfresh
  obtain ⟨hep, hid⟩ := (mem_insertFresh hpage ids e).mp he
  have hmem : e ∈ unseen r ids := List.mem_filter.mpr ⟨hpage hep, decide_eq_true hid⟩
  rw [← heq, unseen, List.mem_filter, decide_eq_true_eq, mem_insertFresh_ids] at hmem
  exact hmem.2 (Or.inr ⟨e, hep, rfl⟩)

/-- The ids kept are those of what was passed, the new events of the page included. -/
theorem Paged.mem_ids_insertFresh {s : ReqState W} {page : List NostrEvent}
    (hs : Paged r start stop s) (hev : page ⊆ r.events) :
    ∀ e ∈ r.events, e.id ∈ (insertFresh s.haveIds page).2 ↔
      e ∈ s.day.passed ++ (insertFresh s.haveIds page).1 := by
  intro e he
  rw [mem_insertFresh_ids, hs.mem_ids e he, List.mem_append, mem_insertFresh hev]
  constructor
  · rintro (hp | ⟨y, hy, hye⟩)
    · exact Or.inl hp
    · have heq : y = e := RelayStore.eq_of_id (hev hy) he hye
      by_cases hid : e.id ∈ s.haveIds
      · exact Or.inl ((hs.mem_ids e he).mp hid)
      · exact Or.inr ⟨heq ▸ hy, hid⟩
  · rintro (hp | ⟨hp, _⟩)
    · exact Or.inl hp
    · exact Or.inr ⟨e, hp, rfl⟩

/-- A page of one second, with nothing new on it: the loop steps back below that second. -/
theorem Paged.step_back {s s' : ReqState W} {page : List NostrEvent} (hs : Paged r start stop s)
    (hfit : SecondsFit r cap start stop)
    (htop : TopBy NostrEvent.createdAt cap (r.within start s.til) page)
    (hmin : (page.map NostrEvent.createdAt).min? = some s.til)
    (hfresh : (insertFresh s.haveIds page).1 = []) (hlt : start < s.til)
    (hids : s'.haveIds = (insertFresh s.haveIds page).2) (htil : s'.til = s.til - 1)
    (hpassed : s'.day.passed = s.day.passed) :
    Paged r start stop s' ∧
      firstSecondWhole r cap start s'.til = firstSecondWhole r cap start s.til := by
  have hall : r.within start s.til ⊆ page := page_of_second hfit hs htop hmin
  have hpp := hs.page_passed htop
  have hidpassed := hs.mem_ids_insertFresh (page_events htop)
  rw [hfresh, List.append_nil] at hpp hidpassed
  have htop' := hs.til_lt
  refine ⟨⟨by omega, by omega, ?_, ?_, ?_⟩, ?_⟩
  · intro e he hgt
    rw [hpassed]
    rcases Nat.lt_or_ge s.til e.createdAt with hab | hat
    · exact hs.above e he hab
    · obtain ⟨hee, hes, _⟩ := RelayStore.mem_within.mp he
      exact hpp (hall (RelayStore.mem_within.mpr ⟨hee, hes, hat⟩))
  · rw [hids, hpassed]
    exact hidpassed
  · intro e he
    rw [hpassed] at he
    obtain ⟨hee, hge⟩ := hs.passed e he
    exact ⟨hee, by omega⟩
  · -- nothing is older than the page, so the day ends before its first second either way
    have hnone : r.within start s'.til = [] := by
      rw [List.eq_nil_iff_forall_not_mem]
      intro e he
      obtain ⟨hee, hes, het⟩ := RelayStore.mem_within.mp he
      have hin : e ∈ page := hall (RelayStore.mem_within.mpr ⟨hee, hes, by omega⟩)
      have hge := (List.min?_eq_some_iff.mp hmin).2 _ (List.mem_map_of_mem hin)
      omega
    have hlast : lastKey NostrEvent.createdAt cap (r.within start s.til) = some s.til := by
      rw [htop.lastKey_eq (r.nodup_within start s.til), hmin]
    rw [firstSecondWhole, firstSecondWhole, hlast, hnone]
    simp only [lastKey, List.map_nil, List.find?_nil, lt_irrefl, if_false, not_le.mpr hlt]

/-- A page with new events: the loop goes on from the second it ends in. -/
theorem Paged.read_page {s s' : ReqState W} {page : List NostrEvent} {oldest : ℕ}
    (hs : Paged r start stop s)
    (htop : TopBy NostrEvent.createdAt cap (r.within start s.til) page)
    (hmin : (page.map NostrEvent.createdAt).min? = some oldest) (hlt : start < oldest)
    (hids : s'.haveIds = (insertFresh s.haveIds page).2) (htil : s'.til = oldest)
    (hpassed : s'.day.passed = s.day.passed ++ (insertFresh s.haveIds page).1) :
    Paged r start stop s' ∧
      firstSecondWhole r cap start s'.til = firstSecondWhole r cap start s.til := by
  have hev := page_events htop
  obtain ⟨hmem, hle⟩ := List.min?_eq_some_iff.mp hmin
  obtain ⟨x, hx, hxo⟩ := List.mem_map.mp hmem
  have hot : oldest ≤ s.til := by
    rw [← hxo]
    exact (RelayStore.mem_within.mp (htop.subset hx)).2.2
  have htop' := hs.til_lt
  refine ⟨⟨by omega, by omega, ?_, ?_, ?_⟩, ?_⟩
  · intro e he hgt
    rw [hpassed]
    rcases Nat.lt_or_ge s.til e.createdAt with hab | hat
    · exact List.mem_append_left _ (hs.above e he hab)
    · obtain ⟨hee, hes, _⟩ := RelayStore.mem_within.mp he
      apply hs.page_passed htop
      exact htop.mem_of_lt hx (RelayStore.mem_within.mpr ⟨hee, hes, hat⟩) (by omega)
  · rw [hids, hpassed]
    exact hs.mem_ids_insertFresh hev
  · intro e he
    rw [hpassed] at he
    rcases List.mem_append.mp he with he | he
    · obtain ⟨hee, hge⟩ := hs.passed e he
      exact ⟨hee, by omega⟩
    · have hep := ((mem_insertFresh hev s.haveIds e).mp he).1
      have hge := hle _ (List.mem_map_of_mem hep)
      exact ⟨hev hep, by omega⟩
  · have hlast : lastKey NostrEvent.createdAt cap (r.within start s.til) = some oldest := by
      rw [htop.lastKey_eq (r.nodup_within start s.til), hmin]
    rcases Nat.lt_or_ge oldest s.til with hless | hsame
    · rw [firstSecondWhole.eq_def r cap start s.til, hlast, htil]
      simp only [not_le.mpr hlt, if_false, hless, if_true]
    · rw [htil, le_antisymm hot hsame]

/-- One turn keeps the invariant, does not change what the first second depends on, and lowers the
variant. -/
theorem paged_again (hserve : ServesNewest net r cap) (hcap : cap ≤ 10000)
    (hfit : SecondsFit r cap start stop) {s s' : ReqState W} (hs : Paged r start stop s)
    (h : reqTurn net sink start stop s = .again s') :
    (Paged r start stop s' ∧
      firstSecondWhole r cap start s'.til = firstSecondWhole r cap start s.til) ∧
      variant r s' < variant r s := by
  obtain ⟨page, oldest, w, hpage, hmin, hids, hcases⟩ := reqTurn_again h
  have htop := reqPage_ok hserve hcap hpage
  rw [variant, variant, hids, Prod.Lex.toLex_lt_toLex]
  rcases hcases with ⟨hfresh, rfl, hlt, htil, hpassed⟩ | ⟨hfresh, hlt, htil, hpassed⟩
  · refine ⟨hs.step_back hfit htop hmin hfresh hlt hids htil hpassed, ?_⟩
    have hlen := (unseen_sublist r s.haveIds page).length_le
    rcases Nat.lt_or_ge (unseen r (insertFresh s.haveIds page).2).length
      (unseen r s.haveIds).length with hless | hsame
    · exact Or.inl hless
    · exact Or.inr ⟨le_antisymm hlen hsame, by omega⟩
  · exact ⟨hs.read_page htop hmin hlt hids htil hpassed,
      Or.inl (unseen_lt (page_events htop) s.haveIds hfresh)⟩

/-- What is left of the day is what lies up to `til`. -/
private theorem Paged.dayRead {s : ReqState W} (hs : Paged r start stop s) {d : DayRun W}
    (hpassed : s.day.passed ⊆ d.passed) (hrest : r.within start s.til ⊆ d.passed) :
    DayRead r start stop d := by
  intro e he hge hlt
  rcases Nat.lt_or_ge s.til e.createdAt with hab | hat
  · exact hpassed (hs.above e (RelayStore.mem_within.mpr ⟨he, hge, by omega⟩) hab)
  · exact hrest (RelayStore.mem_within.mpr ⟨he, hge, hat⟩)

/-- A page that comes to the first second completes the day if and only if it is not cut off. -/
private theorem Paged.dayRead_last_iff {s : ReqState W} {page : List NostrEvent} {oldest : ℕ}
    (hs : Paged r start stop s) (hfit : SecondsFit r cap start stop)
    (htop : TopBy NostrEvent.createdAt cap (r.within start s.til) page)
    (hmin : (page.map NostrEvent.createdAt).min? = some oldest) (hold : oldest ≤ start)
    {d : DayRun W} (hpassed : d.passed = s.day.passed ++ (insertFresh s.haveIds page).1) :
    DayRead r start stop d ↔ (r.within start s.til).length ≤ cap := by
  obtain ⟨hmem, _⟩ := List.min?_eq_some_iff.mp hmin
  obtain ⟨x, hx, hxo⟩ := List.mem_map.mp hmem
  constructor
  · intro hday
    by_contra hcut
    obtain ⟨y, hy, hout⟩ :=
      htop.exists_notMem (r.nodup_within start s.til) (not_le.mp hcut)
    obtain ⟨hye, hys, hyt⟩ := RelayStore.mem_within.mp hy
    have hyo : y.createdAt ≤ oldest := by
      rw [← hxo]
      exact htop.le_of_notMem x hx y hy hout
    have hyd : y ∈ d.passed := hday y hye hys (by have := hs.til_lt; omega)
    rw [hpassed] at hyd
    rcases List.mem_append.mp hyd with hyp | hyf
    · -- a page that ends in the first second is not cut off
      have hty : s.til ≤ y.createdAt := (hs.passed y hyp).2
      have htil : s.til = start := by omega
      have hsec := hfit start le_rfl (by have := hs.til_lt; omega)
      rw [htil] at hcut
      omega
    · exact hout ((mem_insertFresh (page_events htop) s.haveIds y).mp hyf).1
  · intro hfits
    apply hs.dayRead
    · rw [hpassed]
      exact List.subset_append_left _ _
    · intro e he
      rw [hpassed]
      exact hs.page_passed htop (htop.subset_of_le hfits he)

/-- Where the loop is left with `Ok`, the day is complete unless its first second was cut off. -/
theorem paged_leave (hserve : ServesNewest net r cap) (hpos : 0 < cap) (hcap : cap ≤ 10000)
    (hfit : SecondsFit r cap start stop) {s : ReqState W} (hs : Paged r start stop s)
    {d : DayRun W} (h : reqTurn net sink start stop s = .leave (.ok (), d)) :
    DayRead r start stop d ↔ firstSecondWhole r cap start s.til = true := by
  obtain ⟨page, w, hpage, hcases⟩ := reqTurn_leave h
  have htop := reqPage_ok hserve hcap hpage
  have hlast := htop.lastKey_eq (r.nodup_within start s.til)
  rw [firstSecondWhole, hlast]
  rcases hcases with ⟨rfl, hpassed⟩ | ⟨oldest, hmin, hcases⟩
  · -- an empty page: nothing is left
    have hnil : r.within start s.til = [] := htop.eq_nil hpos
    have hday : DayRead r start stop d := by
      apply hs.dayRead
      · rw [hpassed]
        exact List.Subset.refl _
      · rw [hnil]
        exact List.nil_subset _
    exact ⟨fun _ => rfl, fun _ => hday⟩
  · rw [hmin]
    rcases hcases with ⟨hfresh, hstep, hpassed⟩ | ⟨hfresh, hold, hpassed⟩
    · -- nothing new: the page is the first second, and it fits
      have hot : oldest = s.til := hs.oldest_of_no_fresh htop hmin hfresh
      subst hot
      have hall : r.within start s.til ⊆ page := page_of_second hfit hs htop hmin
      have hday : DayRead r start stop d := by
        apply hs.dayRead
        · rw [hpassed]
          exact List.Subset.refl _
        · intro e he
          have hpp := hs.page_passed htop (hall he)
          rwa [hfresh, List.append_nil, ← hpassed] at hpp
      have hlen : (r.within start s.til).length ≤ page.length :=
        ((r.nodup_within start s.til).subperm hall).length_le
      have hpagelen : page.length = min cap (r.within start s.til).length := htop.length_eq
      have hfits : (r.within start s.til).length ≤ cap := by omega
      have hreach : s.til ≤ start := by
        by_contra hlt
        exact hstep ⟨rfl, not_le.mp hlt⟩
      simp only [hreach, if_true, decide_eq_true_eq]
      exact ⟨fun _ => hfits, fun _ => hday⟩
    · -- the page reaches the first second, and may be cut off in it
      simp only [hold, if_true, decide_eq_true_eq]
      exact hs.dayRead_last_iff hfit htop hmin hold hpassed

end loop

/-! ## The branch -/

section branch

variable {net : Client W} {sink : Sink W} {r : RelayStore} {cap start stop : ℕ}

/-- The loop starts with nothing passed, at the end of the day. -/
private theorem paged_start (r : RelayStore) (hday : start < stop) {d : DayRun W}
    (hd : d.passed = []) (w : W) :
    Paged r start stop ({ til := stop - 1, day := { d with world := w } } : ReqState W) := by
  refine ⟨?_, ?_, ?_, ?_, ?_⟩
  · show start ≤ stop - 1
    omega
  · show stop - 1 < stop
    omega
  · intro e he hgt
    have hle := (RelayStore.mem_within.mp he).2.2
    exact absurd hgt (not_lt.mpr hle)
  · intro e _
    show e.id ∈ [] ↔ e ∈ d.passed
    rw [hd]
    simp
  · intro e he
    have hnil : e ∈ d.passed := he
    rw [hd] at hnil
    cases hnil

/-- **A day read over REQs.** The branch ends, and where it ends with `Ok` every event of the day
was passed to the sink if and only if the page that reaches the first second of the day holds the
whole of it. -/
theorem day_read_iff_first_second_whole (hserve : ServesNewest net r cap) (hpos : 0 < cap)
    (hcap : cap ≤ 10000) (hday : start < stop) (hfit : SecondsFit r cap start stop) (d : DayRun W)
    (hd : d.passed = []) :
    (∃ n, ∀ turns, n ≤ turns → ∃ out, reqBranch net sink start stop turns d = some out) ∧
      ∀ turns d', reqBranch net sink start stop turns d = some (.ok (), d') →
        (DayRead r start stop d' ↔ firstSecondWhole r cap start (stop - 1) = true) := by
  unfold reqBranch
  split
  case h_1 => exact ⟨⟨0, fun _ _ => ⟨_, rfl⟩⟩, fun _ _ h => by cases h⟩
  case h_2 w _ =>
    have hstart := paged_start r hday hd w
    constructor
    · exact loop_ends (variant r) (fun s s' hs hagain =>
        ⟨(paged_again hserve hcap hfit hs hagain).1.1, (paged_again hserve hcap hfit hs hagain).2⟩)
        hstart
    · intro turns d' hloop
      have hrule := @loop_rule _ _ (reqTurn net sink start stop)
        (fun s => Paged r start stop s ∧ firstSecondWhole r cap start s.til =
          firstSecondWhole r cap start (stop - 1))
        (fun out => out.1 = .ok () →
          (DayRead r start stop out.2 ↔ firstSecondWhole r cap start (stop - 1) = true))
        ?_ ?_ turns _ _ ⟨hstart, rfl⟩ hloop
      · exact hrule rfl
      · rintro s s' ⟨hs, hwhole⟩ hagain
        obtain ⟨⟨hs', hkeep⟩, _⟩ := paged_again hserve hcap hfit hs hagain
        exact ⟨hs', hkeep.trans hwhole⟩
      · rintro s ⟨res, d'⟩ ⟨hs, hwhole⟩ hleave rfl
        rw [← hwhole]
        exact paged_leave hserve hpos hcap hfit hs hleave

end branch

/-! ## A relay that answers as asked -/

/-- What is received of a subscription that is answered at once. -/
def answer (events : List NostrEvent) : String × List Notification :=
  ("1", events.map (.event "1") ++ [.endOfStoredEvents "1"])

/-- The newest events of a relay that a filter asks for. -/
def newestPage (r : RelayStore) (cap : ℕ) (f : Filter) : List NostrEvent :=
  ((r.events.filter f.wants).insertionSort fun a b => b.createdAt ≤ a.createdAt).take
    (f.limit.elim cap (min cap))

/-- A relay without negentropy that answers every REQ with its newest events. -/
def newestRelay (r : RelayStore) (cap : ℕ) : Client Unit where
  relay w := (.ok (), w)
  sync _ _ _ w := (.error "negentropy not supported".toList, w)
  req f w := (.ok (answer (newestPage r cap f)), w)
  toLowercase := asciiLower

/-- A sink that has nothing and takes everything. -/
def blankSink : Sink Unit where
  missing ids w := (ids, w)
  localItems _ _ w := ([], w)
  process events w := (events.length, w)

theorem recvLoop_answer (events acc : List NostrEvent) :
    recvLoop "1" acc (answer events).2 = .ok (acc ++ events) := by
  unfold answer
  induction events generalizing acc with
  | nil =>
    rw [List.append_nil]
    rfl
  | cons e events ih =>
    have hstep := ih (acc ++ [e])
    rw [List.append_assoc, List.singleton_append] at hstep
    exact hstep

theorem servesNewest_newestRelay (r : RelayStore) (cap : ℕ) :
    ServesNewest (newestRelay r cap) r cap := by
  intro since til w page w' hpage
  have hwants : r.events.filter (pageFilter since til).wants = r.within since til := by
    apply List.filter_congr
    intro e _
    simp [Filter.wants, pageFilter]
  have hreq : reqOnce (newestRelay r cap) (pageFilter since til) w =
      (recvLoop "1" [] (answer (newestPage r cap (pageFilter since til))).2, w) := rfl
  rw [hreq, recvLoop_answer, List.nil_append, newestPage, hwants] at hpage
  cases hpage
  exact TopBy.of_sorted (r.nodup_within since til)

/-- An event of which only the id and the time matter. -/
def plainEvent (id : String) (t : ℕ) : NostrEvent :=
  { id := id, pubkey := "", createdAt := t, kind := 1, tags := [], content := "", sig := "" }

/-- Midnight of 2023-11-15. -/
def someDay : ℕ := 1700006400

/-- Two events in the first second of a day and two in the next. -/
def edgeStore : RelayStore where
  events := [plainEvent "a" someDay, plainEvent "b" someDay, plainEvent "c" (someDay + 1),
    plainEvent "d" (someDay + 1)]
  ids := by decide

private theorem edgeStore_fits : SecondsFit edgeStore 3 someDay (someDay + 86400) := by
  intro t _ _
  have hcount : (edgeStore.within t t).length =
      ([someDay, someDay, someDay + 1, someDay + 1].filter fun c => decide (t ≤ c ∧ c ≤ t)).length := by
    have htimes : [someDay, someDay, someDay + 1, someDay + 1] =
        edgeStore.events.map NostrEvent.createdAt := rfl
    rw [htimes, List.filter_map, List.length_map]
    rfl
  rw [hcount]
  by_cases h0 : t = someDay
  · subst h0
    decide
  · by_cases h1 : t = someDay + 1
    · subst h1
      decide
    · have hnone : ∀ c ∈ [someDay, someDay, someDay + 1, someDay + 1],
          ¬ decide (t ≤ c ∧ c ≤ t) = true := by
        intro c hc
        simp only [List.mem_cons, List.not_mem_nil, or_false] at hc
        rw [decide_eq_true_eq]
        omega
      rw [List.filter_eq_nil_iff.mpr hnone]
      decide

/-- A unit that meets nothing on its way. -/
def quietEnv : UnitEnv Unit where
  looksLikeGeneratedPath := false
  probe := none
  added := true
  connected := true
  timedOut := none
  nowProbe := 1700200000
  now := 1700200000
  now' := 1700200000

/-- A state database with nothing on record. -/
def blankState : ScrapeState := { days := fun _ => none, relays := fun _ => none }

/-- `ScrapeConfig::default`. -/
def someConfig : ScrapeConfig where
  minDate := 1640995200
  floorSecs := 600
  deadAfterFails := 3
  deadForSecs := 86400
  nip11RecheckSecs := 604800

/-- A page of three holds both events of the second second and one of the first. The loop stops
there, the fourth event is not asked for, and the day is recorded as done. -/
theorem lost_in_first_second :
    ServesNewest (newestRelay edgeStore 3) edgeStore 3 ∧
      SecondsFit edgeStore 3 someDay (someDay + 86400) ∧
      (∃ d, reqBranch (newestRelay edgeStore 3) blankSink someDay (someDay + 86400) 1
          { world := (), info := { negentropy := some false } } = some (.ok (), d) ∧
        ¬ DayRead edgeStore someDay (someDay + 86400) d) ∧
      ∃ st, fetchDay (newestRelay edgeStore 3) blankSink someConfig 1 quietEnv "wss://r".toList
          { negentropy := some false } "2023-11-15".toList someDay (someDay + 86400) blankState () =
            some (st, ()) ∧
        st.dayDone "2023-11-15".toList "wss://r".toList = true := by
  refine ⟨servesNewest_newestRelay edgeStore 3, edgeStore_fits, ⟨_, rfl, ?_⟩, _, rfl, ?_⟩
  · intro hday
    have hmem := hday (plainEvent "b" someDay) (by decide) le_rfl (by decide)
    revert hmem
    decide
  · rfl

/-! ## A day that is read whole -/

/-- Three events a second apart. -/
def spreadStore : RelayStore where
  events := [plainEvent "a" someDay, plainEvent "b" (someDay + 1), plainEvent "c" (someDay + 2)]
  ids := by decide

private theorem spreadStore_fits : SecondsFit spreadStore 2 someDay (someDay + 86400) := by
  intro t _ _
  have hcount : (spreadStore.within t t).length =
      ([someDay, someDay + 1, someDay + 2].filter fun c => decide (t ≤ c ∧ c ≤ t)).length := by
    have htimes : [someDay, someDay + 1, someDay + 2] =
        spreadStore.events.map NostrEvent.createdAt := rfl
    rw [htimes, List.filter_map, List.length_map]
    rfl
  have hsub : ([someDay, someDay + 1, someDay + 2].filter fun c => decide (t ≤ c ∧ c ≤ t)) ⊆ [t] := by
    intro c hc
    rw [List.mem_filter, decide_eq_true_eq] at hc
    rw [List.mem_singleton]
    omega
  have hnodup : ([someDay, someDay + 1, someDay + 2].filter fun c =>
      decide (t ≤ c ∧ c ≤ t)).Nodup := List.Nodup.filter _ (by decide)
  rw [hcount]
  exact Nat.lt_succ_of_le (hnodup.subperm hsub).length_le

/-- Two pages of two, of which the second holds the whole first second. -/
theorem spread_day_read :
    (∃ n, ∀ turns, n ≤ turns → ∃ out, reqBranch (newestRelay spreadStore 2) blankSink someDay
        (someDay + 86400) turns { world := (), info := {} } = some out) ∧
      ∀ turns d', reqBranch (newestRelay spreadStore 2) blankSink someDay (someDay + 86400) turns
          { world := (), info := {} } = some (.ok (), d') →
        DayRead spreadStore someDay (someDay + 86400) d' := by
  obtain ⟨hends, hiff⟩ := @day_read_iff_first_second_whole Unit (newestRelay spreadStore 2)
    blankSink spreadStore 2 someDay (someDay + 86400) (servesNewest_newestRelay spreadStore 2)
    (by decide) (by decide) (by decide) spreadStore_fits { world := (), info := {} } rfl
  refine ⟨hends, fun turns d' h => (hiff turns d' h).mpr ?_⟩
  have hlast : lastKey NostrEvent.createdAt 2 (spreadStore.within someDay (someDay + 86400 - 1)) =
      some (someDay + 1) := by decide
  have hlast' : lastKey NostrEvent.createdAt 2 (spreadStore.within someDay (someDay + 1)) =
      some someDay := by decide
  rw [firstSecondWhole, hlast]
  show (if _ then _ else if _ then _ else _) = true
  rw [if_neg (by decide), if_pos (by decide), firstSecondWhole, hlast']
  rfl

end NostrSearch.Indexer
