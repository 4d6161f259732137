import NostrSearch.Dashboard.Reports

/-!
# Seeding keeps up

One report is followed from the node to the page: `Fed` has what is published, what the page holds
and what is on its way, next to the view `drained` that the frames so far come to. Frames may be
merged again into something that has them already (`Queued`), so a response takes the page as far as
the frames do if it has all that went past the page before it arrives (`Fits`, for a tail of the
frames).

`seeds_keep_up` puts the steps together. An older response takes the page back, and nothing that is
on its way brings it forward again (`old_response_stays`).
-/

namespace NostrSearch.Dashboard

open NostrSearch.Core NostrSearch.Lib NostrSearch.Stats NostrSearch.Server

/-! ## One report -/

section Fed

variable {σ ε : Type} {R : Reporter σ ε} (t : R.Tracked)

/-- What is shown comes, with these frames, to what tracks the state, and to what was drained unless
something is published ahead of its frame. -/
structure Fits (s : σ) (ahead : Bool) (drained : View t.κ t.β) (ps : List (Patch t.κ t.β))
    (shown : View t.κ t.β) : Prop where
  tracks : t.format.Tracks (t.dirty s) (t.format.patchedAll ps shown) (t.view s)
  exact : ahead = false → t.format.patchedAll ps shown = drained

/-- A report, its frames, what the page holds and the responses, each with the frames since. -/
structure Feeding (s : σ) (ahead : Bool) (published : Option Json) (held : Json → Prop)
    (responses : Json → ℕ → Prop) (drained : View t.κ t.β) (ps : List (Patch t.κ t.β)) : Prop where
  inv : t.Inv s
  queued : t.format.Queued ∅ ps drained
  tracks : t.format.Tracks (t.dirty s) drained (t.view s)
  published : ∃ shown, published = some (t.format.view shown) ∧ Fits t s ahead drained [] shown
  held : ∀ h, held h → ∃ shown, h = t.format.view shown ∧ Fits t s ahead drained ps shown
  responses : ∀ v since, responses v since → ∃ shown, v = t.format.view shown ∧
    ∀ qs, qs <:+ ps → since ≤ qs.length → Fits t s ahead drained qs shown

def Fed (s : σ) (ahead : Bool) (published : Option Json) (frames : List Json) (held : Json → Prop)
    (responses : Json → ℕ → Prop) : Prop :=
  ∃ drained ps, List.Forall₂ t.format.Spells frames ps ∧
    Feeding t s ahead published held responses drained ps

variable {t} {s s' : σ} {ahead : Bool} {published : Option Json} {frames : List Json}
  {held held' : Json → Prop} {responses responses' : Json → ℕ → Prop} {drained : View t.κ t.β}
  {ps : List (Patch t.κ t.β)} {shown : View t.κ t.β}

theorem Fits.moves (h : Fits t s ahead drained ps shown)
    (hmoves : t.format.Moves (t.dirty s) (t.view s) (t.dirty s') (t.view s')) :
    Fits t s' ahead drained ps shown :=
  ⟨h.tracks.moves hmoves, h.exact⟩

/-- Where there are no marks there is one view only. -/
theorem eq_of_tracks {v v' : View t.κ t.β} (h : t.format.Tracks ∅ v v') : v = v' :=
  funext fun k => h.outside k (Finset.notMem_empty k)

/-- The frames drained so far, against the state. -/
theorem Feeding.queued_dirty (h : Feeding t s ahead published held responses drained ps) :
    t.format.Queued (t.dirty s) ps (t.view s) :=
  h.queued.moves ⟨Finset.empty_subset _, h.tracks⟩

theorem Fed.inv (h : Fed t s ahead published frames held responses) : t.Inv s := by
  obtain ⟨_, _, _, hf⟩ := h
  exact hf.inv

/-- The same frames, for a state and a drained view where all that fitted fits. -/
theorem Feeding.map {ahead' : Bool} {drained' : View t.κ t.β}
    (h : Feeding t s ahead published held responses drained ps) (hinv : t.Inv s')
    (hqueued : t.format.Queued ∅ ps drained')
    (htracks : t.format.Tracks (t.dirty s') drained' (t.view s'))
    (hfits : ∀ qs shown, Fits t s ahead drained qs shown → Fits t s' ahead' drained' qs shown) :
    Feeding t s' ahead' published held responses drained' ps := by
  refine ⟨hinv, hqueued, htracks, ?_, ?_, ?_⟩
  · obtain ⟨shown, hpublished, hshown⟩ := h.published
    exact ⟨shown, hpublished, hfits _ _ hshown⟩
  · intro j hj
    obtain ⟨shown, hview, hshown⟩ := h.held j hj
    exact ⟨shown, hview, hfits _ _ hshown⟩
  · intro v since hr
    obtain ⟨shown, hview, hshown⟩ := h.responses v since hr
    exact ⟨shown, hview, fun qs hqs hle => hfits _ _ (hshown qs hqs hle)⟩

theorem Fed.moves (h : Fed t s ahead published frames held responses) (hinv : t.Inv s')
    (hmoves : t.format.Moves (t.dirty s) (t.view s) (t.dirty s') (t.view s')) :
    Fed t s' ahead published frames held responses := by
  obtain ⟨drained, ps, hspells, hf⟩ := h
  exact ⟨drained, ps, hspells, hf.map hinv hf.queued (hf.tracks.moves hmoves)
    fun _ _ hfits => hfits.moves hmoves⟩

/-- A publish is ahead of the frames if there is something to drain. -/
theorem Fed.publish (h : Fed t s ahead published frames held responses) :
    Fed t s (ahead || (R.drainDelta s).2.isSome) (some (R.snapshot s)) frames held responses := by
  obtain ⟨drained, ps, hspells, hf⟩ := h
  have hkept : Feeding t s (ahead || (R.drainDelta s).2.isSome) published held responses drained
      ps := by
    apply hf.map hf.inv hf.queued hf.tracks
    intro qs shown hfits
    exact ⟨hfits.tracks, fun hnot => hfits.exact (Bool.or_eq_false_iff.mp hnot).1⟩
  refine ⟨drained, ps, hspells, hf.inv, hf.queued, hf.tracks, ?_, hkept.held, hkept.responses⟩
  refine ⟨t.view s, by rw [t.snapshot_eq], Layout.Tracks.refl _ _, fun hnot => ?_⟩
  -- nothing to drain, so nothing is marked
  have hdirty : t.dirty s = ∅ := by
    by_contra hne
    obtain ⟨patch, hpatch, -⟩ := t.drain_dirty s hf.inv hne
    rw [hpatch] at hnot
    exact Bool.noConfusion (Bool.or_eq_false_iff.mp hnot).2
  have htracks := hf.tracks
  rw [hdirty] at htracks
  exact (eq_of_tracks htracks).symm

/-- A tail of frames with one more behind them is that one behind a tail. -/
theorem suffix_concat {α : Type*} {as bs : List α} {a : α} (h : bs <:+ as ++ [a])
    (hlen : 0 < bs.length) : ∃ cs, bs = cs ++ [a] ∧ cs <:+ as := by
  obtain ⟨front, hfront⟩ := h
  induction bs using List.reverseRecOn with
  | nil => exact absurd hlen (lt_irrefl 0)
  | append_singleton cs c _ =>
    rw [← List.append_assoc] at hfront
    obtain ⟨hinit, hlast⟩ := List.append_inj' hfront rfl
    rw [List.cons.injEq] at hlast
    exact ⟨cs, by rw [hlast.1], front, hinit⟩

/-- The view of the state now is what is drained. -/
theorem tracks_drain (s : σ) :
    t.format.Tracks (t.dirty (R.drainDelta s).1) (t.view s) (t.view (R.drainDelta s).1) := by
  rw [t.view_drain s]
  exact Layout.Tracks.refl _ _

theorem fits_drain {qs : List (Patch t.κ t.β)} (h : t.format.patchedAll qs shown = t.view s) :
    Fits t (R.drainDelta s).1 false (t.view s) qs shown := by
  refine ⟨?_, fun _ => h⟩
  rw [h]
  exact tracks_drain s

theorem Feeding.drain_clean (h : Feeding t s ahead published held responses drained ps)
    (hclean : t.dirty s = ∅) :
    Feeding t (R.drainDelta s).1 false published held responses (t.view s) ps := by
  have heq : ∀ v, t.format.Tracks (t.dirty s) v (t.view s) → v = t.view s := by
    intro v hv
    rw [hclean] at hv
    exact eq_of_tracks hv
  refine h.map (t.inv_drain s h.inv) ?_ (tracks_drain s) fun qs shown hfits =>
    fits_drain (heq _ hfits.tracks)
  rw [← heq drained h.tracks]
  exact h.queued

/-- What the frames so far come to, with one of all that is marked behind them. -/
theorem Fits.drain_dirty (h : Fits t s ahead drained ps shown) :
    Fits t (R.drainDelta s).1 false (t.view s) (ps ++ [Layout.changes (t.dirty s) (t.view s)])
      shown := by
  apply fits_drain
  rw [Layout.patchedAll_append]
  exact Layout.patched_changes h.tracks

theorem Feeding.drain_dirty {patch : Json}
    (h : Feeding t s ahead published held responses drained ps)
    (hspell : ∀ v, Json.mergePatch patch (t.format.view v) =
      t.format.view (t.format.patched (Layout.changes (t.dirty s) (t.view s)) v))
    (hresponses : ∀ v since, responses' v since → ∃ since', responses v since' ∧ since = since' + 1) :
    Feeding t (R.drainDelta s).1 false
      (some (Json.mergePatch patch (published.getD Json.null))) held responses' (t.view s)
      (ps ++ [Layout.changes (t.dirty s) (t.view s)]) := by
  refine ⟨t.inv_drain s h.inv, h.queued_dirty.drain, tracks_drain s, ?_, ?_, ?_⟩
  · obtain ⟨shown, hpublished, hfits⟩ := h.published
    have htracks : t.format.Tracks (t.dirty s) shown (t.view s) := hfits.tracks
    refine ⟨t.view s, ?_, fits_drain rfl⟩
    rw [hpublished, Option.getD_some, hspell, Layout.patched_changes htracks]
  · intro j hj
    obtain ⟨shown, hview, hfits⟩ := h.held j hj
    exact ⟨shown, hview, hfits.drain_dirty⟩
  · intro v since hr
    obtain ⟨since', hr', rfl⟩ := hresponses v since hr
    obtain ⟨shown, hview, hfits⟩ := h.responses v since' hr'
    refine ⟨shown, hview, fun qs hqs hle => ?_⟩
    -- the new frame is among those since the response was taken
    obtain ⟨qs', rfl, hqs'⟩ := suffix_concat hqs (by omega)
    rw [List.length_append, List.length_singleton] at hle
    have hfits' := hfits qs' hqs' (by omega)
    exact hfits'.drain_dirty

/-- A drain puts a frame behind the others, or there is nothing that is not in them. -/
theorem Fed.drain (h : Fed t s ahead published frames held responses)
    (hresponses : ∀ v since, responses' v since →
      ∃ since', responses v since' ∧
        since = since' + if (R.drainDelta s).2.isSome then 1 else 0) :
    Fed t (R.drainDelta s).1 false
      (match (R.drainDelta s).2 with
        | none => published
        | some patch => some (Json.mergePatch patch (published.getD Json.null)))
      (frames ++ (R.drainDelta s).2.toList) held responses' := by
  obtain ⟨drained, ps, hspells, hf⟩ := h
  by_cases hdirty : t.dirty s = ∅
  · have hdrained := hf.drain_clean hdirty
    rw [t.drain_clean s hdirty] at hresponses ⊢
    rw [Option.toList_none, List.append_nil]
    refine ⟨t.view s, ps, hspells, hdrained.inv, hdrained.queued, hdrained.tracks,
      hdrained.published, hdrained.held, ?_⟩
    intro v since hr
    obtain ⟨since', hr', rfl⟩ := hresponses v since hr
    exact hdrained.responses v _ hr'
  · obtain ⟨patch, hpatch, hspell⟩ := t.drain_dirty s hf.inv hdirty
    rw [hpatch, Option.isSome_some, if_pos rfl] at hresponses
    rw [hpatch]
    exact ⟨t.view s, _, List.rel_append hspells (List.Forall₂.cons hspell List.Forall₂.nil),
      hf.drain_dirty hspell hresponses⟩

/-- The node answers with what is published. -/
theorem Fed.take {report : Json} (h : Fed t s ahead (some report) frames held responses)
    (hresponses : ∀ v since, responses' v since →
      responses v since ∨ v = report ∧ since = 0) :
    Fed t s ahead (some report) frames held responses' := by
  obtain ⟨drained, ps, hspells, hf⟩ := h
  refine ⟨drained, ps, hspells, hf.inv, hf.queued, hf.tracks, hf.published, hf.held, ?_⟩
  intro v since hr
  rcases hresponses v since hr with hr | ⟨rfl, -⟩
  · exact hf.responses v since hr
  · obtain ⟨shown, hpublished, hfits⟩ := hf.published
    refine ⟨shown, Option.some.inj hpublished, fun qs hqs _ => ⟨?_, fun hnot => ?_⟩⟩
    · obtain ⟨front, rfl⟩ := hqs
      exact hfits.tracks.patchedAll hf.queued_dirty.suffix
    · -- what was drained has these frames in it already
      obtain ⟨front, rfl⟩ := hqs
      have hdrained : shown = drained := hfits.exact hnot
      have hagain := (Layout.Tracks.refl ∅ drained).patchedAll hf.queued.suffix
      rw [hdrained]
      exact eq_of_tracks hagain

/-- A response arrives that is not older than what went past. -/
theorem Fed.deliver {v : Json} {since : ℕ} (h : Fed t s ahead published frames held responses)
    (hr : responses v since) (hle : since ≤ frames.length)
    (hresponses : ∀ v since, responses' v since → responses v since) :
    Fed t s ahead published frames (fun j => j = v) responses' := by
  obtain ⟨drained, ps, hspells, hf⟩ := h
  refine ⟨drained, ps, hspells, hf.inv, hf.queued, hf.tracks, hf.published, ?_,
    fun v since hr => hf.responses v since (hresponses v since hr)⟩
  rintro j rfl
  obtain ⟨shown, hshown, hfits⟩ := hf.responses j since hr
  refine ⟨shown, hshown, hfits ps List.suffix_rfl ?_⟩
  rw [← hspells.length_eq]
  exact hle

/-- The next frame goes past the page, which merges it into what it holds. -/
theorem Fed.next {patch : Json} (h : Fed t s ahead published (patch :: frames) held responses)
    (hheld : ∀ j', held' j' → ∃ j, held j ∧ j' = Json.mergePatch patch j) :
    Fed t s ahead published frames held' responses := by
  obtain ⟨drained, ps, hspells, hf⟩ := h
  cases hspells with
  | @cons _ p _ ps hp hrest =>
    have hqueued : t.format.Queued ∅ ([p] ++ ps) drained := hf.queued
    refine ⟨drained, ps, hrest, hf.inv, hqueued.suffix, hf.tracks, hf.published, ?_, ?_⟩
    · intro j' hj'
      obtain ⟨j, hj, rfl⟩ := hheld j' hj'
      obtain ⟨shown, rfl, hfits⟩ := hf.held j hj
      exact ⟨t.format.patched p shown, hp shown, hfits.tracks, hfits.exact⟩
    · intro v since hr
      obtain ⟨shown, hshown, hfits⟩ := hf.responses v since hr
      exact ⟨shown, hshown, fun qs hqs hle => hfits qs (hqs.trans (List.suffix_cons p ps)) hle⟩

theorem Fed.mono (h : Fed t s ahead published frames held responses)
    (hheld : ∀ j, held' j → held j)
    (hresponses : ∀ v since, responses' v since → responses v since) :
    Fed t s ahead published frames held' responses' := by
  obtain ⟨drained, ps, hspells, hf⟩ := h
  exact ⟨drained, ps, hspells, hf.inv, hf.queued, hf.tracks, hf.published,
    fun j hj => hf.held j (hheld j hj),
    fun v since hr => hf.responses v since (hresponses v since hr)⟩

/-- With no frames to come and nothing published ahead of them, the page has what is published. -/
theorem Fed.kept_up (h : Fed t s false published [] held responses) {j : Json} (hj : held j) :
    published = some j := by
  obtain ⟨drained, ps, hspells, hf⟩ := h
  cases hspells
  obtain ⟨shown, rfl, hfits⟩ := hf.held j hj
  obtain ⟨shown', hpublished, hfits'⟩ := hf.published
  have hsame : shown = drained := hfits.exact rfl
  have hsame' : shown' = drained := hfits'.exact rfl
  rw [hpublished, hsame, hsame']

/-- A page that opens. -/
theorem fed_published (hinv : t.Inv s) (hheld : ∀ j, ¬ held j)
    (hresponses : ∀ v since, ¬ responses v since) :
    Fed t s false (some (R.snapshot s)) [] held responses := by
  refine ⟨t.view s, [], List.Forall₂.nil, hinv, Layout.queued_nil, Layout.Tracks.refl _ _, ?_,
    fun j hj => absurd hj (hheld j), fun v since hr => absurd hr (hresponses v since)⟩
  exact ⟨t.view s, by rw [t.snapshot_eq], Layout.Tracks.refl _ _, fun _ => rfl⟩

end Fed

/-! ## The node and the page -/

namespace Site

variable {cfg : Parsers}

/-- What the page holds of a report that it has. -/
def held (n : Site) (i : DeltaReport) (j : Json) : Prop :=
  n.page.seeded i = true ∧
    ∃ report, n.page.data i = some (JsVal.parse report) ∧ toJson Scalar.json report = j

def taken (n : Site) (i : DeltaReport) (v : Json) (since : ℕ) : Prop :=
  ∃ r ∈ n.page.responses, r.report = i ∧ r.value = v ∧ r.since = since

variable (cfg) in
structure Inv (n : Site) : Prop where
  fed : ∀ i, Fed (i.tracked cfg) (n.node.state i) (n.ahead i) (n.node.published i) (n.pending i)
    (n.held i) (n.taken i)
  shut : n.page.live = false → n.page.frames = []
  seeded : ∀ i, n.page.seeded i = true → ∃ report, n.page.data i = some (JsVal.parse report)
  patches : ∀ f ∈ n.page.frames ++ n.node.sending, f.2 ≠ Json.null

theorem framesOf_append (i : DeltaReport) (frames frames' : List (DeltaReport × Json)) :
    Server.Node.framesOf i (frames ++ frames') =
      Server.Node.framesOf i frames ++ Server.Node.framesOf i frames' :=
  List.filterMap_append

theorem Inv.kept_up {n : Site} (h : n.Inv cfg) : n.KeptUp := by
  intro hrest i hseeded hahead
  obtain ⟨hsending, hframes, -⟩ := hrest
  obtain ⟨report, hreport⟩ := h.seeded i hseeded
  have hfed := h.fed i
  have hpending : n.pending i = [] := by
    rw [pending, hsending, hframes]
    rfl
  rw [hpending, hahead] at hfed
  exact ⟨report, hreport, hfed.kept_up ⟨hseeded, report, hreport, rfl⟩⟩

theorem inv_fold {n : Site} (hn : n.Inv cfg) (handed : DeltaReport → Option Observed)
    {node : Server.Node} (hstate : node.state = (n.node.fold cfg handed).state)
    (hpublished : node.published = n.node.published) (hsending : node.sending = n.node.sending) :
    ({ n with node := node } : Site).Inv cfg := by
  refine ⟨?_, hn.shut, hn.seeded, by rw [hsending]; exact hn.patches⟩
  intro i
  have hi := hn.fed i
  show Fed _ (node.state i) (n.ahead i) (node.published i)
    (Server.Node.framesOf i (n.page.frames ++ node.sending)) _ _
  rw [hstate, hpublished, hsending]
  show Fed _ ((handed i).elim (n.node.state i) fun o =>
    ((i.reporter cfg).analysis.observe o.ev o.ctx o.store (n.node.state i)).1) _ _ _ _ _
  cases handed i with
  | none => exact hi
  | some o =>
    have hstep := (i.tracked cfg).observe _ o.ev o.ctx o.store hi.inv
    exact hi.moves hstep.1 hstep.2

theorem inv_publish {n : Site} (hn : n.Inv cfg) :
    ({ n with
        node := { n.node.publish cfg with dirty := false }
        ahead := fun i => n.ahead i || (n.node.drained cfg i).isSome } : Site).Inv cfg :=
  ⟨fun i => (hn.fed i).publish, hn.shut, hn.seeded, hn.patches⟩

/-- A delta is an object. -/
theorem drained_ne_null (node : Server.Node) (i : DeltaReport) :
    node.drained cfg i ≠ some Json.null := by
  cases i with
  | activity =>
    show (Activity.drainDelta (node.state .activity)).2 ≠ some Json.null
    rw [Activity.drainDelta]
    split
    · exact nofun
    · exact nofun
  | activeUsers =>
    show (ActiveUsers.drainDelta cfg.len (node.state .activeUsers)).2 ≠ some Json.null
    rw [ActiveUsers.drainDelta]
    split
    · exact nofun
    · exact nofun
  | newUsers =>
    show (NewUsers.drainDelta (node.state .newUsers)).2 ≠ some Json.null
    rw [NewUsers.drainDelta]
    split
    · exact nofun
    · exact nofun
  | clientTags =>
    show (Clients.drainDelta (node.state .clientTags)).2 ≠ some Json.null
    rw [Clients.drainDelta]
    split
    · exact nofun
    · exact nofun

theorem inv_drain {n : Site} (hn : n.Inv cfg) (hsending : n.node.sending = []) :
    ({ node := n.node.drain cfg
       page := { n.page with
         responses := n.page.responses.map fun r =>
           if (n.node.drained cfg r.report).isSome then { r with since := r.since + 1 } else r }
       ahead := fun _ => false } : Site).Inv cfg := by
  refine ⟨?_, hn.shut, hn.seeded, ?_⟩
  rotate_left
  · intro f hf
    rcases List.mem_append.mp hf with hf | hf
    · exact hn.patches f (List.mem_append_left _ hf)
    · obtain ⟨i, -, hi⟩ := List.mem_filterMap.mp hf
      obtain ⟨patch, hpatch, rfl⟩ := Option.map_eq_some_iff.mp hi
      rintro rfl
      exact drained_ne_null n.node i hpatch
  intro i
  have hpending : Server.Node.framesOf i (n.page.frames ++ (n.node.drain cfg).sending) =
      n.pending i ++ (n.node.drained cfg i).toList := by
    rw [framesOf_append, Server.Node.framesOf_drain, pending, hsending, List.append_nil]
  show Fed _ _ _ _ (Server.Node.framesOf i (n.page.frames ++ (n.node.drain cfg).sending)) _ _
  rw [hpending]
  apply (hn.fed i).drain
  rintro v since ⟨r, hr, rfl, rfl, rfl⟩
  obtain ⟨r', hr', rfl⟩ := List.mem_map.mp hr
  refine ⟨r'.since, ⟨r', hr', ?_, ?_, rfl⟩, ?_⟩
  · split <;> rfl
  · split <;> rfl
  · -- the frame of its report is one more since
    show _ = r'.since + if (n.node.drained cfg _).isSome then 1 else 0
    by_cases hdrained : (n.node.drained cfg r'.report).isSome = true
    · rw [if_pos hdrained]
      show r'.since + 1 = _
      rw [if_pos hdrained]
    · rw [if_neg hdrained]
      rw [if_neg hdrained, Nat.add_zero]

/-- A frame goes out, to the page or past it. -/
theorem inv_send {n : Site} (hn : n.Inv cfg) {i : DeltaReport} {patch : Json}
    {rest : List (DeltaReport × Json)} (hsending : n.node.sending = (i, patch) :: rest)
    (hopen : n.page.live = true ∨ n.page.seeded i = false) {node : Server.Node}
    (hstate : node.state = n.node.state) (hpublished : node.published = n.node.published)
    (hrest : node.sending = rest) :
    ({ n with
        node := node
        page :=
          if n.page.live then { n.page with frames := n.page.frames ++ n.node.sending.take 1 }
          else n.page } : Site).Inv cfg := by
  by_cases hlive : n.page.live = true
  · rw [if_pos hlive]
    -- the frame is on its way to the page
    have hframes : (n.page.frames ++ n.node.sending.take 1) ++ node.sending =
        n.page.frames ++ n.node.sending := by
      rw [hrest, hsending, List.take_succ_cons, List.take_zero, List.append_assoc,
        List.singleton_append]
    refine ⟨?_, ?_, hn.seeded, ?_⟩
    · intro j
      have hj := hn.fed j
      show Fed _ (node.state j) _ (node.published j)
        (Server.Node.framesOf j ((n.page.frames ++ n.node.sending.take 1) ++ node.sending)) _ _
      rw [hstate, hpublished, hframes]
      exact hj
    · intro hshut
      exact absurd (hlive.symm.trans hshut) (by decide)
    · show ∀ f ∈ (n.page.frames ++ n.node.sending.take 1) ++ node.sending, f.2 ≠ Json.null
      rw [hframes]
      exact hn.patches
  · rw [if_neg hlive]
    refine ⟨?_, hn.shut, hn.seeded, ?_⟩
    rotate_left
    · intro f hf
      apply hn.patches f
      rw [hsending]
      rw [hrest] at hf
      exact List.mem_append.mpr ((List.mem_append.mp hf).imp_right (List.mem_cons_of_mem _))
    intro j
    have hj := hn.fed j
    have hshut : n.page.frames = [] := hn.shut (Bool.eq_false_iff.mpr hlive)
    have hpending : n.pending j =
        (if i = j then [patch] else []) ++ Server.Node.framesOf j rest := by
      rw [pending, hshut, hsending, List.nil_append, Server.Node.framesOf_cons]
    rw [hpending] at hj
    show Fed _ (node.state j) _ (node.published j)
      (Server.Node.framesOf j (n.page.frames ++ node.sending)) (n.held j) _
    rw [hstate, hpublished, hrest, hshut, List.nil_append]
    by_cases hij : i = j
    · subst hij
      rw [if_pos rfl] at hj
      -- the page has nothing of this report that the frame would have to be merged into
      apply hj.next
      rintro j' ⟨hseeded, -⟩
      exact absurd (hseeded.symm.trans (hopen.resolve_left hlive)) (by decide)
    · rw [if_neg hij] at hj
      exact hj

theorem inv_take {n : Site} (hn : n.Inv cfg) {i : DeltaReport} {report : Json}
    (hreport : n.node.published i = some report) :
    ({ n with page := { n.page with
        responses := n.page.responses ++ [{ report := i, value := report, since := 0 }] } }
      : Site).Inv cfg := by
  refine ⟨?_, hn.shut, hn.seeded, hn.patches⟩
  intro j
  have hj := hn.fed j
  have hmem : ∀ v since, (∃ r ∈ n.page.responses ++
        [({ report := i, value := report, since := 0 } : Response)],
        r.report = j ∧ r.value = v ∧ r.since = since) →
      n.taken j v since ∨ i = j ∧ v = report ∧ since = 0 := by
    rintro v since ⟨r, hr, rfl, rfl, rfl⟩
    rw [List.mem_append, List.mem_singleton] at hr
    rcases hr with hr | rfl
    · exact Or.inl ⟨r, hr, rfl, rfl, rfl⟩
    · exact Or.inr ⟨rfl, rfl, rfl⟩
  by_cases hij : i = j
  · subst hij
    rw [hreport] at hj
    show Fed _ _ _ (n.node.published i) _ _ _
    rw [hreport]
    exact hj.take fun v since hr => (hmem v since hr).imp_right And.right
  · exact hj.mono (fun _ hh => hh) fun v since hr =>
      (hmem v since hr).resolve_right fun h => hij h.1

theorem inv_deliver {n : Site} (hn : n.Inv cfg) {k : ℕ} {r : Response}
    (hr : n.page.responses[k]? = some r) {text : Doc Scalar} (htext : TextOf r.value text)
    (hle : r.since ≤ (n.pending r.report).length) :
    ({ n with page := { n.page with
        data := Function.update n.page.data r.report (some (JsVal.parse text))
        seeded := Function.update n.page.seeded r.report true
        responses := n.page.responses.eraseIdx k } } : Site).Inv cfg := by
  have hrest : ∀ j v since,
      (∃ r ∈ n.page.responses.eraseIdx k, r.report = j ∧ r.value = v ∧ r.since = since) →
        n.taken j v since :=
    fun j v since ⟨r, hmem, hr⟩ => ⟨r, List.mem_of_mem_eraseIdx hmem, hr⟩
  refine ⟨?_, hn.shut, ?_, hn.patches⟩
  · intro j
    by_cases hj : j = r.report
    · subst hj
      have hdeliver := (hn.fed r.report).deliver ⟨r, List.mem_of_getElem? hr, rfl, rfl, rfl⟩ hle
        (hrest r.report)
      apply hdeliver.mono _ fun _ _ h => h
      rintro j' ⟨-, report, hdata, rfl⟩
      have hparsed : Function.update n.page.data r.report (some (JsVal.parse text)) r.report =
          some (JsVal.parse report) := hdata
      rw [Function.update_self, Option.some.injEq] at hparsed
      rw [← JsVal.parse_inj hparsed]
      exact htext.2
    · apply (hn.fed j).mono _ (hrest j)
      rintro j' ⟨hseeded, report, hdata, rfl⟩
      exact ⟨(Function.update_of_ne hj _ _).symm.trans hseeded, report,
        (Function.update_of_ne hj _ _).symm.trans hdata, rfl⟩
  · intro j hseeded
    by_cases hj : j = r.report
    · subst hj
      exact ⟨text, Function.update_self _ _ _⟩
    · obtain ⟨j', hj'⟩ := hn.seeded j ((Function.update_of_ne hj _ _).symm.trans hseeded)
      exact ⟨j', (Function.update_of_ne hj _ _).trans hj'⟩

theorem inv_receive {n : Site} (hn : n.Inv cfg) {i : DeltaReport} {patch : Json}
    {rest : List (DeltaReport × Json)} (hframes : n.page.frames = (i, patch) :: rest)
    {text : Doc Scalar} (htext : TextOf patch text)
    (hmeets : ∀ report, n.page.seeded i = true → n.page.data i = some (JsVal.parse report) →
      clean text report = true ∧ ownProto text report = true) :
    ({ n with page := { n.page with
        data := Function.update n.page.data i
          (some (mergePatch ((n.page.data i).getD .undefined) text))
        frames := rest } } : Site).Inv cfg := by
  have hpatches := hn.patches
  rw [hframes] at hpatches
  -- a report that the page has is merged as the node merges it
  have hmerged : ∀ report, n.page.seeded i = true → n.page.data i = some (JsVal.parse report) →
      mergePatch ((n.page.data i).getD .undefined) text =
        JsVal.parse (Stats.mergePatch report text) := by
    intro report hseeded hreport
    have hnull : text.isNull = false := by
      cases text with
      | null =>
        rw [TextOf, toJson] at htext
        exact absurd htext.2.symm (hpatches (i, patch) (List.mem_append_left _ List.mem_cons_self))
      | scalar | arr | obj => rfl
    obtain ⟨hclean, hown⟩ := hmeets report hseeded hreport
    rw [hreport, Option.getD_some, mergePatch_parse htext.1 hnull hclean hown]
  refine ⟨?_, ?_, ?_, fun f hf => hpatches f (List.mem_cons_of_mem _ hf)⟩
  · intro j
    have hj := hn.fed j
    have hpending : n.pending j = (if i = j then [patch] else []) ++
        Server.Node.framesOf j (rest ++ n.node.sending) := by
      rw [pending, hframes, List.cons_append, Server.Node.framesOf_cons]
    rw [hpending] at hj
    by_cases hij : i = j
    · subst hij
      rw [if_pos rfl] at hj
      apply hj.next
      rintro j' ⟨hseeded, report', hdata, rfl⟩
      obtain ⟨report, hreport⟩ := hn.seeded i hseeded
      refine ⟨toJson Scalar.json report, ⟨hseeded, report, hreport, rfl⟩, ?_⟩
      have hparsed : Function.update n.page.data i
          (some (mergePatch ((n.page.data i).getD .undefined) text)) i =
          some (JsVal.parse report') := hdata
      rw [Function.update_self, Option.some.injEq, hmerged report hseeded hreport] at hparsed
      rw [← JsVal.parse_inj hparsed, toJson_mergePatch Scalar.plain htext.1, htext.2]
    · rw [if_neg hij] at hj
      apply hj.mono _ fun _ _ h => h
      rintro j' ⟨hseeded, report, hdata, rfl⟩
      exact ⟨hseeded, report, (Function.update_of_ne (Ne.symm hij) _ _).symm.trans hdata, rfl⟩
  · intro hshut
    have hnil := hn.shut hshut
    rw [hframes] at hnil
    cases hnil
  · intro j hseeded
    by_cases hij : j = i
    · subst hij
      obtain ⟨report, hreport⟩ := hn.seeded j hseeded
      refine ⟨Stats.mergePatch report text, ?_⟩
      rw [← hmerged report hseeded hreport]
      exact Function.update_self _ _ _
    · obtain ⟨report, hreport⟩ := hn.seeded j hseeded
      exact ⟨report, (Function.update_of_ne hij _ _).trans hreport⟩

theorem inv_step {n n' : Site} {a : Act} (hn : n.Inv cfg) (htext : n.Texts a) (hok : n.InTime a)
    (h : n.step cfg a = some n') : n'.Inv cfg := by
  cases a with
  | event handed =>
    obtain ⟨node, hnode, rfl⟩ := Option.map_eq_some_iff.mp h
    rw [Server.Node.step] at hnode
    split at hnode
    · cases hnode
      exact inv_fold hn handed rfl rfl rfl
    · cases hnode
  | replay handed =>
    cases h
    exact inv_fold hn handed rfl rfl rfl
  | commitTick =>
    obtain ⟨node, hnode, rfl⟩ := Option.map_eq_some_iff.mp h
    rw [Server.Node.step] at hnode
    split at hnode
    · split at hnode
      case isTrue hdirty =>
        cases hnode
        rw [hdirty]
        exact inv_publish hn
      case isFalse hdirty =>
        cases hnode
        have hahead : (fun i => n.ahead i || n.node.dirty && (n.node.drained cfg i).isSome) =
            n.ahead := by
          funext i
          rw [Bool.eq_false_iff.mpr hdirty, Bool.false_and, Bool.or_false]
        rw [hahead]
        exact hn
    · cases hnode
  | deltaTick =>
    obtain ⟨node, hnode, rfl⟩ := Option.map_eq_some_iff.mp h
    rw [Server.Node.step] at hnode
    split at hnode
    case isTrue hsending =>
      cases hnode
      exact inv_drain hn hsending
    case isFalse => cases hnode
  | send =>
    obtain ⟨node, hnode, rfl⟩ := Option.map_eq_some_iff.mp h
    rw [Server.Node.step] at hnode
    split at hnode
    · cases hnode
    case h_2 i patch rest hsending =>
      cases hnode
      exact inv_send hn hsending (hok i patch rest hsending) rfl rfl rfl
  | connect =>
    rw [step] at h
    split at h
    · cases h
    · cases h
      exact ⟨hn.fed, fun hshut => Bool.noConfusion hshut, hn.seeded, hn.patches⟩
  | take i =>
    obtain ⟨report, hreport, rfl⟩ := Option.map_eq_some_iff.mp h
    exact inv_take hn hreport
  | deliver k text =>
    obtain ⟨r, hr, rfl⟩ := Option.map_eq_some_iff.mp h
    exact inv_deliver hn hr (htext r hr) (hok r hr)
  | receive text =>
    rw [step] at h
    split at h
    · cases h
    case h_2 i patch rest hframes =>
      cases h
      exact inv_receive hn hframes (htext i patch rest hframes) fun report =>
        hok i patch rest report hframes

theorem inv_start {state : (i : DeltaReport) → i.State} (hboot : Server.Node.Booted cfg state) :
    (start cfg state).Inv cfg := by
  refine ⟨?_, fun _ => rfl, fun i hseeded => Bool.noConfusion hseeded,
    fun f hf => absurd hf List.not_mem_nil⟩
  intro i
  obtain ⟨s, store, hs, hstate⟩ := hboot i
  have hinv : (i.tracked cfg).Inv (state i) := by
    rw [hstate]
    exact ((i.tracked cfg).attach _ store ((i.tracked cfg).inv_restored s
      ((i.tracked cfg).inv_reached hs))).1
  apply fed_published hinv
  · rintro j ⟨hseeded, -⟩
    cases hseeded
  · rintro v since ⟨r, hr, -⟩
    cases hr

/-- However events, replays, ticks, frames and responses interleave: if the responses come in time,
no frame goes out past a page that has the report, and what the frames put under `__proto__` or take
out is where they say, the page has with nothing on its way what is published. -/
theorem seeds_keep_up (cfg : Parsers) (state : (i : DeltaReport) → i.State)
    (hboot : Server.Node.Booted cfg state) (as : List Act)
    (htexts : Along (step cfg) Texts (start cfg state) as)
    (hok : Along (step cfg) InTime (start cfg state) as) :
    ∀ n, Visited (step cfg) (start cfg state) as n → n.KeptUp := by
  intro n hn
  have hinv : n.Inv cfg :=
    visited_invariant (fun s a s' hs hok hstep => inv_step hs hok.1 hok.2 hstep) (inv_start hboot)
      (htexts.and hok) hn
  exact hinv.kept_up

/-! ### A seed before the frame, and one that arrives after it -/

private def quiet : Parsers :=
  { zaps := { fromStr := fun _ => none, amountPicoBtc := fun _ => none }
    len := fun _ => 0
    lower := id }

private def fresh (i : DeltaReport) : i.State :=
  (i.reporter quiet).analysis.attach FirstSeen.empty
    ((i.reporter quiet).analysis.restored (i.reporter quiet).analysis.default)

private theorem booted_fresh : Server.Node.Booted quiet fresh :=
  fun _ => ⟨_, FirstSeen.empty, Reporter.Reached.default, rfl⟩

/-- The first note of all, without a client tag, for `client_tags`. -/
private def firstNote : Act :=
  .event fun i =>
    if i = .clientTags then
      some
        { ev := { id := "", pubkey := "", createdAt := 0, kind := 1, tags := [], content := ""
                  sig := "" }
          ctx := { now := 0, author := Vector.replicate 32 0, eventId := Vector.replicate 32 0
                   world := World.empty }
          store := FirstSeen.empty }
    else none

private def nothing : Doc Scalar := .obj []

private def oneNote : Doc Scalar :=
  .obj [(NO_CLIENT, .obj [("sum", .scalar (.num 1)), ("last_note", .scalar (.num 0)),
    ("kinds", .obj [("1", .scalar (.num 1))])])]

/-- What `client_tags` has of one note. -/
private def noteStats : ClientStats := { sum := 1, lastNote := 0, kinds := Finmap.singleton 1 1 }

private theorem text_nothing : TextOf (Clients.snapshot Clients.default) nothing :=
  ⟨by simp [nothing, Doc.Wf, Doc.WfFields], rfl⟩

/-- A number is spelled in one way. -/
private theorem repr_of_parse {s : String} {n : ℕ} (h : Keys.nat.parse s = some n) :
    n.repr = s := by
  have hparse : (if (Nat.ofDigitChars 10 s.toList 0).repr = s then
      some (Nat.ofDigitChars 10 s.toList 0) else none) = some n := h
  split at hparse
  case isTrue hs =>
    rw [← Option.some.inj hparse]
    exact hs
  case isFalse => cases hparse

private theorem toJson_kinds : toJson Scalar.json (.obj [("1", .scalar (.num 1))]) =
    Keys.nat.view Layout.num noteStats.kinds.lookup := by
  rw [toJson_obj]
  congr 1
  funext key
  rw [List.lookup_cons, List.lookup_nil]
  by_cases hkey : key = "1"
  · subst hkey
    have hparse : Keys.nat.parse "1" = some 1 := Keys.nat.parse_name 1
    rw [hparse, Option.bind_some]
    rfl
  · rw [beq_eq_false_iff_ne.mpr hkey]
    cases hparse : Keys.nat.parse key with
    | none => rfl
    | some n =>
      have hn : n ≠ 1 := by
        rintro rfl
        exact hkey (repr_of_parse hparse).symm
      have hnone : noteStats.kinds.lookup n = none := by
        rw [noteStats, Finmap.lookup_eq_none, Finmap.mem_singleton]
        exact hn
      rw [Option.bind_some]
      dsimp only
      rw [hnone]
      rfl

/-- The frame of the first note. -/
private theorem text_oneNote :
    TextOf (Keys.string.obj fun client =>
      if client ∈ ({NO_CLIENT} : Finset String) then
        ((Finmap.singleton NO_CLIENT noteStats : Finmap fun _ : String => ClientStats).lookup
          client).map ClientStats.json
      else none) oneNote := by
  refine ⟨by simp [oneNote, Doc.Wf, Doc.WfFields], ?_⟩
  rw [oneNote, toJson_obj]
  congr 1
  funext client
  show _ = if client ∈ ({NO_CLIENT} : Finset String) then _ else _
  rw [List.lookup_cons, List.lookup_nil]
  by_cases h : client = NO_CLIENT
  · subst h
    rw [BEq.rfl, if_pos (Finset.mem_singleton_self _), Finmap.lookup_singleton_eq]
    simp only [Option.map_some, Option.some.injEq]
    rw [toJson_obj, ClientStats.json, Json.record]
    congr 1
    funext field
    simp only [List.lookup_cons, List.lookup_nil]
    cases field == "sum" with
    | true => rfl
    | false =>
      cases field == "last_note" with
      | true => rfl
      | false =>
        cases field == "kinds" with
        | true => exact congrArg some toJson_kinds
        | false => rfl
  · rw [beq_eq_false_iff_ne.mpr h, if_neg (by simpa using h)]
    rfl

private def seedThenFrame : List Act :=
  [.connect, .take .clientTags, .deliver 0 nothing, firstNote, .deltaTick, .send, .receive oneNote]

private def frameThenSeed : List Act :=
  [.connect, .take .clientTags, firstNote, .deltaTick, .send, .receive oneNote, .deliver 0 nothing]

/-- A page that has its report when the first frame arrives keeps up. -/
theorem seed_then_frame_keeps_up :
    Along (step quiet) Texts (start quiet fresh) seedThenFrame ∧
      Along (step quiet) InTime (start quiet fresh) seedThenFrame ∧
      ∀ n, Visited (step quiet) (start quiet fresh) seedThenFrame n → n.KeptUp := by
  have htexts : Along (step quiet) Texts (start quiet fresh) seedThenFrame := by
    apply Along.cons rfl trivial
    apply Along.cons rfl trivial
    apply Along.cons rfl
    · intro r hr
      cases hr
      exact text_nothing
    apply Along.cons rfl trivial
    apply Along.cons rfl trivial
    apply Along.cons rfl trivial
    apply Along.cons rfl
    · intro i patch rest hframes
      cases hframes
      exact text_oneNote
    trivial
  have hok : Along (step quiet) InTime (start quiet fresh) seedThenFrame := by
    apply Along.cons rfl trivial
    apply Along.cons rfl trivial
    apply Along.cons rfl
    · intro r hr
      cases hr
      exact Nat.zero_le _
    apply Along.cons rfl trivial
    apply Along.cons rfl trivial
    apply Along.cons rfl
    · exact fun _ _ _ _ => Or.inl rfl
    apply Along.cons rfl
    · intro i patch rest report hframes _ hreport
      cases hframes
      have hnothing : nothing = report := JsVal.parse_inj (Option.some.inj hreport)
      rw [← hnothing]
      decide
    trivial
  exact ⟨htexts, hok, seeds_keep_up quiet fresh booted_fresh seedThenFrame htexts hok⟩

/-- A response that was taken before the frame and arrives after it takes the page back. -/
theorem old_response_stays :
    ¬ ∀ (cfg : Parsers) (state : (i : DeltaReport) → i.State), Server.Node.Booted cfg state →
      ∀ as : List Act, Along (step cfg) Texts (start cfg state) as →
        ∀ n, Visited (step cfg) (start cfg state) as n → n.KeptUp := by
  intro h
  have htexts : Along (step quiet) Texts (start quiet fresh) frameThenSeed := by
    apply Along.cons rfl trivial
    apply Along.cons rfl trivial
    apply Along.cons rfl trivial
    apply Along.cons rfl trivial
    apply Along.cons rfl trivial
    apply Along.cons rfl
    · intro i patch rest hframes
      cases hframes
      exact text_oneNote
    apply Along.cons rfl
    · intro r hr
      cases hr
      exact text_nothing
    trivial
  obtain ⟨report, hreport, hpublished⟩ := h quiet fresh booted_fresh frameThenSeed htexts _
    ⟨frameThenSeed, List.prefix_rfl, rfl⟩ ⟨rfl, rfl, rfl⟩ .clientTags rfl rfl
  have hnothing : nothing = report := JsVal.parse_inj (Option.some.inj hreport)
  rw [← hnothing] at hpublished
  have hget := congrArg (fun j => (j.bind fun j => j.get NO_CLIENT).isSome) hpublished
  revert hget
  decide +kernel

end Site

end NostrSearch.Dashboard
