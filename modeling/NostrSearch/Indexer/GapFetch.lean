import NostrSearch.Indexer.NegWindows

/-!
# The ids an accepted window is missing

What the sink is missing of an accepted window is asked for in REQs of up to 500 ids each, and a
reply is taken as it comes: nobody looks how many of the events it holds. A relay that answers a
REQ with no more than `cap` events drops the rest of a longer chunk, and the day is done
(`drops_an_id`). `fetched_iff_chunks_fit` says that an id is lost in no other way.
-/

namespace NostrSearch.Indexer

open NostrSearch.Core NostrSearch.Lib

variable {W : Type*}

/-! ## The relay -/

/-- The events of a relay that some ids name. -/
def RelayStore.named (r : RelayStore) (ids : List String) : List NostrEvent :=
  r.events.filter fun e => decide (e.id ∈ ids)

theorem RelayStore.mem_named {r : RelayStore} {ids : List String} {e : NostrEvent} :
    e ∈ r.named ids ↔ e ∈ r.events ∧ e.id ∈ ids := by
  rw [named, List.mem_filter, decide_eq_true_eq]

theorem RelayStore.nodup_named (r : RelayStore) (ids : List String) : (r.named ids).Nodup :=
  r.ids.of_map.filter _

theorem RelayStore.length_named_le (r : RelayStore) (ids : List String) :
    (r.named ids).length ≤ ids.length := by
  have hnodup : ((r.named ids).map NostrEvent.id).Nodup :=
    r.ids.sublist ((List.filter_sublist).map _)
  have hsub : (r.named ids).map NostrEvent.id ⊆ ids := by
    intro i hi
    obtain ⟨e, he, rfl⟩ := List.mem_map.mp hi
    exact (RelayStore.mem_named.mp he).2
  have hlen := (hnodup.subperm hsub).length_le
  rwa [List.length_map] at hlen

/-- A correct reply to a REQ for some ids: events they name, as many as there are up to `cap`. -/
structure Reply (r : RelayStore) (cap : ℕ) (ids : List String) (page : List NostrEvent) :
    Prop where
  subset : page ⊆ r.named ids
  nodup : page.Nodup
  length_eq : page.length = min cap (r.named ids).length

/-- The relay replies correctly to REQs for ids, with no more than `cap` events. -/
def RepliesToIds (net : Client W) (r : RelayStore) (cap : ℕ) : Prop :=
  ∀ ids w page w', reqOnce net { ids := some ids } w = (.ok page, w') → Reply r cap ids page

/-- The ids it presents in a window are those of events it holds there. -/
def PresentsHeld (net : Client W) (r : RelayStore) : Prop :=
  ∀ lo hi items w out w', net.sync lo hi items w = (.ok out, w') →
    ∀ i ∈ out.remote, ∃ e ∈ r.within lo hi, e.id = i

/-! ## Chunks -/

theorem flatten_chunksOf {α : Type*} (size : ℕ) {left : ℕ} {xs : List α}
    (h : xs.length ≤ left) : (chunksOf size left xs).flatten = xs := by
  induction left generalizing xs with
  | zero => exact (List.eq_nil_of_length_eq_zero (Nat.le_zero.mp h)).symm
  | succ left ih =>
    cases xs with
    | nil => rfl
    | cons x xs =>
      have hrest : (xs.drop (size - 1)).length ≤ left := by
        rw [List.length_cons] at h
        rw [List.length_drop]
        omega
      rw [chunksOf, List.flatten_cons, ih hrest, List.cons_append, List.take_append_drop]

theorem flatten_chunks {α : Type*} (size : ℕ) (xs : List α) : (chunks size xs).flatten = xs :=
  flatten_chunksOf size le_rfl

theorem length_le_of_mem_chunksOf {α : Type*} {size left : ℕ} (hsize : 0 < size) {xs c : List α}
    (hc : c ∈ chunksOf size left xs) : c.length ≤ size := by
  induction left generalizing xs with
  | zero => cases hc
  | succ left ih =>
    cases xs with
    | nil => cases hc
    | cons x xs =>
      rcases List.mem_cons.mp hc with rfl | hc
      · rw [List.length_cons, List.length_take]
        omega
      · exact ih hc

/-- A reply is complete if it could be. -/
theorem Reply.named_subset {r : RelayStore} {cap : ℕ} {ids : List String}
    {page : List NostrEvent} (h : Reply r cap ids page) (hle : (r.named ids).length ≤ cap) :
    r.named ids ⊆ page := by
  have hlen : page.length = min cap (r.named ids).length := h.length_eq
  exact ((h.nodup.subperm h.subset).perm_of_length_le (by omega)).symm.subset

/-- What is in the replies was asked for. -/
theorem id_mem_of_reply {r : RelayStore} {cap : ℕ} {cs : List (List String)}
    {pages : List (List NostrEvent)} (h : List.Forall₂ (Reply r cap) cs pages) {e : NostrEvent}
    (he : e ∈ pages.flatten) : e.id ∈ cs.flatten := by
  induction h with
  | nil => cases he
  | cons hreply _ ih =>
    rw [List.flatten_cons, List.mem_append] at he ⊢
    exact he.imp (fun he => (RelayStore.mem_named.mp (hreply.subset he)).2) ih

/-- When no id is asked for twice, all the ids are answered only if no chunk names more events
than a reply holds. -/
theorem chunks_fit_of_answered {r : RelayStore} {cap : ℕ} {cs : List (List String)}
    {pages : List (List NostrEvent)} (h : List.Forall₂ (Reply r cap) cs pages)
    (hnodup : cs.flatten.Nodup)
    (hall : ∀ i ∈ cs.flatten, ∃ e ∈ pages.flatten, e.id = i) :
    ∀ c ∈ cs, (r.named c).length ≤ cap := by
  induction h with
  | nil =>
    intro c hc
    cases hc
  | @cons ids page cs pages hreply hrest ih =>
    rw [List.flatten_cons, List.nodup_append'] at hnodup
    obtain ⟨_, hnodup, hdisj⟩ := hnodup
    intro c hc
    rcases List.mem_cons.mp hc with rfl | hc
    · have hsub : r.named c ⊆ page := by
        intro e he
        obtain ⟨hev, hid⟩ := RelayStore.mem_named.mp he
        obtain ⟨e', he', heq⟩ := hall e.id (List.mem_append_left _ hid)
        rcases List.mem_append.mp (List.flatten_cons ▸ he') with hin | hout
        · have hev' := (RelayStore.mem_named.mp (hreply.subset hin)).1
          exact RelayStore.eq_of_id hev' hev heq ▸ hin
        · exact absurd (heq ▸ id_mem_of_reply hrest hout) (hdisj hid)
      have hlen := ((r.nodup_named c).subperm hsub).length_le
      have hpage : page.length = min cap (r.named c).length := hreply.length_eq
      omega
    · refine ih hnodup (fun i hi => ?_) c hc
      obtain ⟨e, he, rfl⟩ := hall i (List.mem_append_right _ hi)
      rcases List.mem_append.mp (List.flatten_cons ▸ he) with hin | hout
      · exact absurd hi (hdisj (RelayStore.mem_named.mp (hreply.subset hin)).2)
      · exact ⟨e, hout, rfl⟩

/-- When no chunk names more events than a reply holds, every event that is named is answered. -/
theorem answered_of_chunks_fit {r : RelayStore} {cap : ℕ} {cs : List (List String)}
    {pages : List (List NostrEvent)} (h : List.Forall₂ (Reply r cap) cs pages)
    (hfit : ∀ c ∈ cs, (r.named c).length ≤ cap) {e : NostrEvent} (he : e ∈ r.events)
    (hid : e.id ∈ cs.flatten) : e ∈ pages.flatten := by
  induction h with
  | nil => cases hid
  | @cons ids page cs pages hreply _ ih =>
    rw [List.flatten_cons, List.mem_append] at hid ⊢
    rcases hid with hin | hout
    · have hpage := hreply.named_subset (hfit ids List.mem_cons_self)
      exact Or.inl (hpage (RelayStore.mem_named.mpr ⟨he, hin⟩))
    · exact Or.inr (ih (fun c hc => hfit c (List.mem_cons_of_mem ids hc)) hout)

/-! ## Fetching -/

section fetch

variable {net : Client W} {sink : Sink W} {r : RelayStore} {cap : ℕ}

theorem fetchChunk_ok (hnet : RepliesToIds net r cap) {ids : List String} {d d' : DayRun W}
    (h : fetchChunk net sink ids d = (.ok (), d')) :
    ∃ page, Reply r cap ids page ∧ d'.passed = d.passed ++ page := by
  rw [fetchChunk] at h
  split at h
  case h_1 => cases h
  case h_2 w _ =>
    split at h
    case h_1 => cases h
    case h_2 events w' hreq =>
      cases h
      exact ⟨events, reqWindow_ok (hnet ids) hreq, rfl⟩

/-- Chunks fetched to the end have a reply each, and the replies are what is passed on. -/
theorem fetchChunks_ok (hnet : RepliesToIds net r cap) {cs : List (List String)}
    {d d' : DayRun W} (h : fetchChunks net sink cs d = (.ok (), d')) :
    ∃ pages, List.Forall₂ (Reply r cap) cs pages ∧ d'.passed = d.passed ++ pages.flatten := by
  induction cs generalizing d with
  | nil =>
    cases h
    exact ⟨[], List.Forall₂.nil, by rw [List.flatten_nil, List.append_nil]⟩
  | cons ids cs ih =>
    rw [fetchChunks] at h
    split at h
    case h_1 => cases h
    case h_2 d₁ hone =>
      obtain ⟨page, hreply, hpassed⟩ := fetchChunk_ok hnet hone
      obtain ⟨pages, hrest, hpassed'⟩ := ih h
      refine ⟨page :: pages, List.Forall₂.cons hreply hrest, ?_⟩
      rw [hpassed', hpassed, List.append_assoc, List.flatten_cons]

/-! ## The accepted windows -/

/-- What the accepted windows asked for. -/
def askedChunks (accepted : List Accepted) : List (List String) :=
  accepted.flatMap fun a => chunks GAP_CHUNK a.missing

theorem flatten_askedChunks (accepted : List Accepted) :
    (askedChunks accepted).flatten = accepted.flatMap Accepted.missing := by
  induction accepted with
  | nil => rfl
  | cons a accepted ih =>
    rw [askedChunks, List.flatMap_cons, List.flatten_append, flatten_chunks, ← askedChunks, ih,
      List.flatMap_cons]

/-- The accepted windows so far: their ids are those of events in them, what the sink said of
these ids is what was asked for, and what was passed on are the replies. -/
structure Fetching (sink : Sink W) (r : RelayStore) (cap : ℕ) (s : NegState W) : Prop where
  remote : ∀ a ∈ s.accepted, a.remote.Nodup ∧
    (∀ i ∈ a.remote, ∃ e ∈ r.within a.lo (a.hi - 1), e.id = i) ∧
    ∃ w, (sink.missing a.remote w).1 = a.missing
  replies : ∃ pages, List.Forall₂ (Reply r cap) (askedChunks s.accepted) pages ∧
    ∀ e, e ∈ s.day.passed ↔ e ∈ pages.flatten

theorem fetching_again (hnet : RepliesToIds net r cap) (hsync : PresentsHeld net r)
    {floorSecs : ℕ} {s s' : NegState W} (hs : Fetching sink r cap s)
    (h : negTurn net sink floorSecs s = .again s') : Fetching sink r cap s' := by
  obtain ⟨lo, hi, rest, out, w, _, hwindow, _, hcase⟩ := negTurn_again h
  rcases hcase with hsplit | hacc
  · refine ⟨?_, ?_⟩
    · rw [hsplit.accepted]
      exact hs.remote
    · rw [hsplit.accepted, hsplit.passed]
      exact hs.replies
  · obtain ⟨w₁, d, hd, hfetch, haccepted⟩ := hacc.fetched
    obtain ⟨items, w₂, hout⟩ := syncWindow_ok hwindow
    refine ⟨?_, ?_⟩
    · rw [haccepted]
      intro a ha
      rcases List.mem_cons.mp ha with rfl | ha
      · exact ⟨out.nodup, hsync _ _ _ _ _ _ hout, w₁, rfl⟩
      · exact hs.remote a ha
    · obtain ⟨pages, hpages, hpassed⟩ := hs.replies
      obtain ⟨new, hnew, hpassed'⟩ := fetchChunks_ok hnet hfetch
      refine ⟨new ++ pages, ?_, fun e => ?_⟩
      · rw [haccepted, askedChunks, List.flatMap_cons]
        exact List.rel_append hnew hpages
      · rw [hpassed', hd, List.mem_append, hpassed, List.flatten_append, List.mem_append]
        exact or_comm

/-- Ids of different windows are different. -/
theorem nodup_missing {s : NegState W} {start stop : ℕ} (hs : Fetching sink r cap s)
    (htiles : Tiles start (s.accepted.map Accepted.window) stop)
    (hfilter : ∀ ids w, (sink.missing ids w).1.Sublist ids) :
    (s.accepted.flatMap Accepted.missing).Nodup := by
  have hsub : ∀ a ∈ s.accepted, a.missing.Sublist a.remote := by
    intro a ha
    obtain ⟨_, _, w, hw⟩ := hs.remote a ha
    exact hw ▸ hfilter a.remote w
  rw [List.nodup_flatMap]
  refine ⟨fun a ha => (hs.remote a ha).1.sublist (hsub a ha), ?_⟩
  have hapart := List.pairwise_map.mp htiles.pairwise
  refine hapart.imp_of_mem fun {a b} ha hb hab => ?_
  intro i hia hib
  obtain ⟨e, he, hei⟩ := (hs.remote a ha).2.1 i ((hsub a ha).subset hia)
  obtain ⟨e', he', hei'⟩ := (hs.remote b hb).2.1 i ((hsub b hb).subset hib)
  obtain ⟨hev, hlo, hhi⟩ := RelayStore.mem_within.mp he
  obtain ⟨hev', hlo', hhi'⟩ := RelayStore.mem_within.mp he'
  have heq : e = e' := RelayStore.eq_of_id hev hev' (hei.trans hei'.symm)
  have hbounds := htiles.bounds (List.mem_map_of_mem ha)
  have hlt : a.lo < a.hi := hbounds.2.1
  have hle : a.hi ≤ b.lo := hab
  subst heq
  omega

end fetch

/-! ## The branch -/

/-- Every id of an accepted window is one the sink did not report missing, or its event was passed
to the sink. -/
def AllFetched (accepted : List Accepted) (passed : List NostrEvent) : Prop :=
  ∀ a ∈ accepted, ∀ i ∈ a.remote, i ∉ a.missing ∨ ∃ e ∈ passed, e.id = i

/-- No REQ of the accepted windows names more than `cap` events of the relay. -/
def ChunksFit (r : RelayStore) (cap : ℕ) (accepted : List Accepted) : Prop :=
  ∀ a ∈ accepted, ∀ c ∈ chunks GAP_CHUNK a.missing, (r.named c).length ≤ cap

/-- A relay that answers with 500 events at a time loses none. -/
theorem chunksFit_of_le {r : RelayStore} {cap : ℕ} (hcap : GAP_CHUNK ≤ cap)
    (accepted : List Accepted) : ChunksFit r cap accepted := by
  intro a _ c hc
  have hlen : c.length ≤ GAP_CHUNK := length_le_of_mem_chunksOf (by decide) hc
  have hnamed := r.length_named_le c
  omega

section branch

variable {net : Client W} {sink : Sink W} {r : RelayStore} {cap floorSecs start stop : ℕ}

private theorem mem_askedChunks {accepted : List Accepted} {c : List String} :
    c ∈ askedChunks accepted ↔ ∃ a ∈ accepted, c ∈ chunks GAP_CHUNK a.missing := by
  rw [askedChunks, List.mem_flatMap]

/-- Chunks that fit lose no id. -/
theorem Fetching.allFetched {s : NegState W} (hs : Fetching sink r cap s)
    (hfit : ChunksFit r cap s.accepted) : AllFetched s.accepted s.day.passed := by
  obtain ⟨pages, hpages, hpassed⟩ := hs.replies
  intro a ha i hi
  by_cases hmiss : i ∈ a.missing
  · obtain ⟨e, he, hei⟩ := (hs.remote a ha).2.1 i hi
    have hasked : e.id ∈ (askedChunks s.accepted).flatten := by
      rw [flatten_askedChunks, List.mem_flatMap]
      exact ⟨a, ha, hei ▸ hmiss⟩
    have hall : ∀ c ∈ askedChunks s.accepted, (r.named c).length ≤ cap := by
      intro c hc
      obtain ⟨b, hb, hcb⟩ := mem_askedChunks.mp hc
      exact hfit b hb c hcb
    have hin := answered_of_chunks_fit hpages hall (RelayStore.mem_within.mp he).1 hasked
    exact Or.inr ⟨e, (hpassed e).mpr hin, hei⟩
  · exact Or.inl hmiss

/-- Where no id is lost the chunks fit, since no id was asked for twice. -/
theorem Fetching.chunksFit {s : NegState W} (hs : Fetching sink r cap s)
    (htiles : Tiles start (s.accepted.map Accepted.window) stop)
    (hfilter : ∀ ids w, (sink.missing ids w).1.Sublist ids)
    (hall : AllFetched s.accepted s.day.passed) : ChunksFit r cap s.accepted := by
  obtain ⟨pages, hpages, hpassed⟩ := hs.replies
  intro a ha c hc
  have hnodup := nodup_missing hs htiles hfilter
  rw [← flatten_askedChunks] at hnodup
  refine chunks_fit_of_answered hpages hnodup (fun i hi => ?_) c (mem_askedChunks.mpr ⟨a, ha, hc⟩)
  rw [flatten_askedChunks, List.mem_flatMap] at hi
  obtain ⟨b, hb, hib⟩ := hi
  obtain ⟨_, _, w, hw⟩ := hs.remote b hb
  have hremote : i ∈ b.remote := by
    have hsub := hfilter b.remote w
    rw [hw] at hsub
    exact hsub.subset hib
  rcases hall b hb i hremote with hnot | ⟨e, he, hei⟩
  · exact absurd hib hnot
  · exact ⟨e, (hpassed e).mp he, hei⟩

/-- A failure is recorded for the relay, not for the day. -/
theorem recordFailure_days (cfg : ScrapeConfig) (info : RelayInfo) (url : List Char)
    (now now' : ℕ) (st : ScrapeState) :
    (recordFailure cfg info url now now' st).days = st.days := rfl

/-- A day whose negentropy branch fails is not recorded. -/
theorem fetchDay_days_of_failed {cfg : ScrapeConfig} {turns : ℕ} {env : UnitEnv W}
    {url date : List Char} {info : RelayInfo} {st st' : ScrapeState} {w w' : W} {e : ScrapeError}
    {s : NegState W} (hneg : info.negentropy ≠ some false)
    (hfail : negBranch net sink cfg.floorSecs start stop turns { world := w, info := info } =
      some (.failed e, s))
    (h : fetchDay net sink cfg turns env url info date start stop st w = some (st', w')) :
    st'.days = st.days := by
  have hday : scrapeDay net sink cfg.floorSecs start stop turns { world := w, info := info } =
      some (.error e, s.day) := by
    rw [scrapeDay, if_neg hneg, hfail]
  rw [fetchDay] at h
  split at h
  case isFalse =>
    cases h
    exact recordFailure_days _ _ _ _ _ _
  case isTrue =>
    split at h
    case h_1 =>
      cases h
      exact recordFailure_days _ _ _ _ _ _
    case h_2 =>
      rw [hday] at h
      cases h
      exact recordFailure_days _ _ _ _ _ _

/-- **What a reconciled day fetched.** Where the negentropy branch ends well, no id of an accepted
window is lost if no REQ named more events than a reply holds; and only then, if the sink reports
as missing only ids it was asked about. Where the branch fails, the day is not recorded. -/
theorem fetched_iff_chunks_fit {cfg : ScrapeConfig} (hnet : RepliesToIds net r cap)
    (hsync : PresentsHeld net r) (hfloor : 1 ≤ cfg.floorSecs) (hday : start ≤ stop) (w : W)
    (info : RelayInfo) :
    (∀ turns s, negBranch net sink cfg.floorSecs start stop turns { world := w, info := info } =
        some (.finished, s) →
      (ChunksFit r cap s.accepted → AllFetched s.accepted s.day.passed) ∧
        ((∀ ids w, (sink.missing ids w).1.Sublist ids) →
          AllFetched s.accepted s.day.passed → ChunksFit r cap s.accepted)) ∧
      ∀ turns e s, info.negentropy ≠ some false →
        negBranch net sink cfg.floorSecs start stop turns { world := w, info := info } =
          some (.failed e, s) →
        ∀ env url date st st' w',
          fetchDay net sink cfg turns env url info date start stop st w = some (st', w') →
            st'.days = st.days := by
  refine ⟨fun turns s hloop => ?_, fun turns e s hneg hfail env url date st st' w' h =>
    fetchDay_days_of_failed hneg hfail h⟩
  have hstart : Fetching sink r cap (negStart start stop ({ world := w, info := info } : DayRun W)) := by
    refine ⟨fun a ha => (by cases ha), [], List.Forall₂.nil, fun e => ?_⟩
    exact ⟨fun he => (by cases he), fun he => (by cases he)⟩
  have htiles := accepted_tile hfloor hday hloop
  have hrule := @loop_rule _ _ (negTurn net sink cfg.floorSecs) (Fetching sink r cap)
    (fun out => out.1 = .finished → Fetching sink r cap out.2)
    (fun s s' hs h => fetching_again hnet hsync hs h) ?_ turns _ _ hstart hloop
  · exact ⟨(hrule rfl).allFetched, fun hfilter hall => (hrule rfl).chunksFit htiles hfilter hall⟩
  · rintro s out hs hleave hfin
    obtain ⟨hacc, hdone⟩ := negTurn_leave hleave
    refine ⟨?_, ?_⟩
    · rw [hacc]
      exact hs.remote
    · rw [hacc, (hdone hfin).2]
      exact hs.replies

end branch

/-! ## A relay with short replies -/

/-- A relay that presents what it holds, and replies to REQs with no more than `cap` events. -/
def shortRelay (r : RelayStore) (cap : ℕ) : Client Unit where
  relay w := (.ok (), w)
  sync := (cappedRelay r r.events.length).sync
  req f w := (.ok (answer ((r.events.filter f.wants).take cap)), w)
  toLowercase := asciiLower

theorem repliesToIds_shortRelay (r : RelayStore) (cap : ℕ) :
    RepliesToIds (shortRelay r cap) r cap := by
  intro ids w page w' h
  have hwants : r.events.filter ({ ids := some ids } : Filter).wants = r.named ids := by
    apply List.filter_congr
    intro e _
    simp [Filter.wants]
  have hreq : reqOnce (shortRelay r cap) { ids := some ids } w =
      (recvLoop "1" [] (answer ((r.events.filter
        ({ ids := some ids } : Filter).wants).take cap)).2, w) := rfl
  rw [hreq, recvLoop_answer, List.nil_append, hwants] at h
  cases h
  refine ⟨List.take_subset cap _, (r.nodup_named ids).sublist (List.take_sublist cap _), ?_⟩
  rw [List.length_take]

theorem presentsHeld_shortRelay (r : RelayStore) (cap : ℕ) : PresentsHeld (shortRelay r cap) r := by
  intro lo hi items w out w' h i hi'
  cases h
  obtain ⟨e, he, hei⟩ := List.mem_map.mp (List.take_subset _ _ hi')
  exact ⟨e, he, hei⟩

/-- The hours of a day, oldest first. -/
private theorem hourWindows_someDay : (hourWindows someDay (someDay + 86400)) =
    (List.range 24).map fun i => (someDay + 3600 * i, someDay + 3600 * (i + 1)) := by
  have hstep : ∀ n k, n + k = 24 → hourWindows (someDay + 3600 * k) (someDay + 86400) =
      (List.range' k n).map fun i => (someDay + 3600 * i, someDay + 3600 * (i + 1)) := by
    intro n
    induction n with
    | zero =>
      intro k hk
      rw [hourWindows, if_neg (by omega)]
      rfl
    | succ n ih =>
      intro k hk
      have hmin : min (someDay + 3600 * k + NEG_WINDOW_SECS) (someDay + 86400) =
          someDay + 3600 * (k + 1) := by
        unfold NEG_WINDOW_SECS
        omega
      rw [hourWindows, if_pos (by omega)]
      simp only [hmin]
      rw [ih (k + 1) (by omega)]
      rfl
  rw [List.range_eq_range']
  exact hstep 24 0 rfl

/-- Four events of one hour, and a relay whose replies are long enough. -/
theorem edge_day_fetched :
    ∃ s, negBranch (shortRelay edgeStore 500) blankSink someConfig.floorSecs someDay
        (someDay + 86400) 25 { world := (), info := {} } = some (.finished, s) ∧
      AllFetched s.accepted s.day.passed := by
  obtain ⟨s, hs⟩ : ∃ s, negBranch (shortRelay edgeStore 500) blankSink someConfig.floorSecs someDay
      (someDay + 86400) 25 { world := (), info := {} } = some (.finished, s) := by
    rw [negBranch, negStart, hourWindows_someDay]
    exact ⟨_, rfl⟩
  have hpair := (fetched_iff_chunks_fit (repliesToIds_shortRelay edgeStore 500)
    (presentsHeld_shortRelay edgeStore 500) (by decide : 1 ≤ someConfig.floorSecs)
    (by decide : someDay ≤ someDay + 86400) () {}).1 25 s hs
  exact ⟨s, hs, hpair.1 (chunksFit_of_le le_rfl s.accepted)⟩

/-- The same day of a relay that replies with three events at a time: the sink is missing all
four, three of them are fetched, and the day is recorded as done. -/
theorem drops_an_id :
    RepliesToIds (shortRelay edgeStore 3) edgeStore 3 ∧
      PresentsHeld (shortRelay edgeStore 3) edgeStore ∧
      ∃ s, negBranch (shortRelay edgeStore 3) blankSink someConfig.floorSecs someDay
          (someDay + 86400) 25 { world := (), info := {} } = some (.finished, s) ∧
        ¬ AllFetched s.accepted s.day.passed ∧
        ∃ st w, fetchDay (shortRelay edgeStore 3) blankSink someConfig 25 quietEnv
            "wss://r".toList {} "2023-11-15".toList someDay (someDay + 86400) blankState () =
              some (st, w) ∧
          st.dayDone "2023-11-15".toList "wss://r".toList = true := by
  have hneg : ∃ s, negBranch (shortRelay edgeStore 3) blankSink someConfig.floorSecs someDay
      (someDay + 86400) 25 { world := (), info := {} } = some (.finished, s) ∧
        ¬ AllFetched s.accepted s.day.passed := by
    rw [negBranch, negStart, hourWindows_someDay]
    refine ⟨_, rfl, ?_⟩
    unfold AllFetched
    decide
  obtain ⟨s, hs, hlost⟩ := hneg
  have hday : scrapeDay (shortRelay edgeStore 3) blankSink someConfig.floorSecs someDay
      (someDay + 86400) 25 { world := (), info := {} } = some (.ok (), s.day) := by
    rw [scrapeDay, if_neg (by decide), hs]
  refine ⟨repliesToIds_shortRelay _ _, presentsHeld_shortRelay _ _, s, hs, hlost, ?_⟩
  refine ⟨recordDone s.day.info "2023-11-15".toList "wss://r".toList someDay s.day.seen s.day.new
    quietEnv.now blankState, s.day.world, ?_, dayDone_recordDone _ _ _ _ _ _ _ _⟩
  rw [fetchDay, if_pos (by decide), hday]
  rfl

end NostrSearch.Indexer
