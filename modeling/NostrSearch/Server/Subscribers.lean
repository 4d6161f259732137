import NostrSearch.Server.Reports

/-!
# Subscribers converge

One report is followed on its way to the subscriber: what is published tracks the state of its
analysis, and the frames that are queued or still to be sent bring whatever tracks the state there
too. Every step but a reset keeps this, so that after a delta tick the subscriber arrives at the
snapshot, whenever it took its seed.

A reset goes round the deltas: it leaves no marks, and nothing says that the keys are gone. What is
needed of it is that it takes nothing away from a subscriber.
-/

namespace NostrSearch.Server

open NostrSearch.Core NostrSearch.Lib NostrSearch.Stats

/-! ## One report -/

section Feed

variable {σ ε : Type} {R : Reporter σ ε} (t : R.Tracked)

/-- Frames that are on their way bring what is held to what tracks the state. -/
structure Arriving (s : σ) (frames : List Json) (held : Option Json) (ps : List (Patch t.κ t.β)) :
    Prop where
  spells : List.Forall₂ t.format.Spells frames ps
  queued : t.format.Queued (t.dirty s) ps (t.view s)
  held : ∀ h, held = some h → ∃ shown, h = t.format.view shown ∧
    t.format.Tracks (t.dirty s) (t.format.patchedAll ps shown) (t.view s)

/-- One report: its state, what is published of it, and what is on its way to the subscriber. -/
structure Feed (s : σ) (published : Option Json) (frames : List Json) (held : Option Json) :
    Prop where
  inv : t.Inv s
  published : ∃ shown, published = some (t.format.view shown) ∧
    t.format.Tracks (t.dirty s) shown (t.view s)
  arriving : ∃ ps, Arriving t s frames held ps

variable {t} {s s' : σ} {published held : Option Json} {frames : List Json}

/-- A step that marks what it changes. -/
theorem Feed.moves (h : Feed t s published frames held) (hinv : t.Inv s')
    (hmoves : t.format.Moves (t.dirty s) (t.view s) (t.dirty s') (t.view s')) :
    Feed t s' published frames held := by
  obtain ⟨ps, hps⟩ := h.arriving
  obtain ⟨shown, hpublished, htracks⟩ := h.published
  refine ⟨hinv, ⟨shown, hpublished, htracks.moves hmoves⟩, ps, hps.spells,
    hps.queued.moves hmoves, ?_⟩
  intro j hj
  obtain ⟨shown', hshown', htracks'⟩ := hps.held j hj
  exact ⟨shown', hshown', htracks'.moves hmoves⟩

theorem Feed.publish (h : Feed t s published frames held) :
    Feed t s (some (R.snapshot s)) frames held := by
  refine ⟨h.inv, ⟨t.view s, ?_, Layout.Tracks.refl _ _⟩, h.arriving⟩
  rw [t.snapshot_eq]

/-- Merging frames is applying their patches. -/
theorem mergedAll_view {F : Format t.κ t.β} {ps : List (Patch t.κ t.β)}
    (hspells : List.Forall₂ F.Spells frames ps) (v : View t.κ t.β) :
    Node.mergedAll frames (F.view v) = F.view (F.patchedAll ps v) := by
  induction hspells generalizing v with
  | nil => rfl
  | @cons j p frames ps hj _ ih =>
    have hstep : Node.mergedAll (j :: frames) (F.view v) =
        Node.mergedAll frames (Json.mergePatch j (F.view v)) := rfl
    rw [hstep, hj, ih]
    rfl

/-- A report is drained: its patch goes into what is published and behind the frames. -/
theorem Feed.drain (h : Feed t s published frames held) :
    Feed t (R.drainDelta s).1
      (match (R.drainDelta s).2 with
        | none => published
        | some patch => some (Json.mergePatch patch (published.getD Json.null)))
      (frames ++ (R.drainDelta s).2.toList) held := by
  obtain ⟨ps, hps⟩ := h.arriving
  obtain ⟨shown, hpublished, htracks⟩ := h.published
  have hinv : t.Inv (R.drainDelta s).1 := t.inv_drain s h.inv
  have hview := t.view_drain s
  have hdirty' := t.dirty_drain s
  by_cases hdirty : t.dirty s = ∅
  · -- nothing to report
    rw [t.drain_clean s hdirty, Option.toList_none, List.append_nil]
    apply h.moves hinv
    rw [hview, hdirty', hdirty]
    exact Layout.Moves.refl _ _
  · obtain ⟨patch, hpatch, hspells⟩ := t.drain_dirty s h.inv hdirty
    rw [hpatch, Option.toList_some]
    refine ⟨hinv, ⟨t.view s, ?_, ?_⟩, ps ++ [Layout.changes (t.dirty s) (t.view s)], ?_, ?_, ?_⟩
    · show some (Json.mergePatch patch (published.getD Json.null)) = some (t.format.view (t.view s))
      rw [hpublished, Option.getD_some, hspells, Layout.patched_changes htracks]
    · rw [hview, hdirty']
      exact Layout.Tracks.refl _ _
    · exact List.rel_append hps.spells (List.Forall₂.cons hspells List.Forall₂.nil)
    · rw [hview, hdirty']
      exact hps.queued.drain
    · intro j hj
      obtain ⟨shown', hshown', htracks'⟩ := hps.held j hj
      refine ⟨shown', hshown', ?_⟩
      rw [hview, hdirty', Layout.patchedAll_append]
      show t.format.Tracks ∅ (t.format.patched _ _) (t.view s)
      rw [Layout.patched_changes htracks']
      exact Layout.Tracks.refl _ _

/-- The subscriber takes its seed, with the frames it has not merged to come. -/
theorem Feed.seed (h : Feed t s published frames held) : Feed t s published frames published := by
  obtain ⟨ps, hps⟩ := h.arriving
  obtain ⟨shown, hpublished, htracks⟩ := h.published
  refine ⟨h.inv, ⟨shown, hpublished, htracks⟩, ps, hps.spells, hps.queued, ?_⟩
  intro j hj
  rw [hpublished, Option.some.injEq] at hj
  exact ⟨shown, hj.symm, htracks.patchedAll hps.queued⟩

/-- It merges its first frame. -/
theorem Feed.receive {patch j : Json} (h : Feed t s published (patch :: frames) (some j)) :
    Feed t s published frames (some (Json.mergePatch patch j)) := by
  obtain ⟨ps, hps⟩ := h.arriving
  obtain ⟨shown, hshown, htracks⟩ := hps.held j rfl
  cases hps.spells with
  | @cons _ p _ ps' hp hrest =>
    have hqueued : t.format.Queued (t.dirty s) ([p] ++ ps') (t.view s) := hps.queued
    refine ⟨h.inv, h.published, ps', hrest, hqueued.suffix, ?_⟩
    intro j' hj'
    refine ⟨t.format.patched p shown, ?_, htracks⟩
    rw [← Option.some.inj hj', hshown, hp]

/-- A new subscriber, which gets the frames from here on. -/
theorem Feed.subscribe {queue sending : List Json}
    (h : Feed t s published (queue ++ sending) held) : Feed t s published sending none := by
  obtain ⟨ps, hps⟩ := h.arriving
  have hsending := (List.forall₂_drop_append _ queue sending hps.spells.flip).flip
  have hqueued := hps.queued
  rw [← List.take_append_drop queue.length ps] at hqueued
  refine ⟨h.inv, h.published, ps.drop queue.length, hsending, hqueued.suffix, ?_⟩
  intro j hj
  cases hj

/-- Nothing held and nothing on its way. -/
theorem feed_published (hinv : t.Inv s) : Feed t s (some (R.snapshot s)) [] none := by
  refine ⟨hinv, ⟨t.view s, ?_, Layout.Tracks.refl _ _⟩, [], List.Forall₂.nil,
    Layout.queued_nil, ?_⟩
  · rw [t.snapshot_eq]
  · intro j hj
    cases hj

/-- With no marks, the frames lead to the snapshot. -/
theorem Feed.converged (h : Feed t s published frames held) (hdirty : t.dirty s = ∅) {j : Json}
    (hj : held = some j) : Node.mergedAll frames j = R.snapshot s := by
  obtain ⟨ps, hps⟩ := h.arriving
  obtain ⟨shown, hshown, htracks⟩ := hps.held j hj
  rw [hshown, mergedAll_view hps.spells, t.snapshot_eq]
  congr 1
  funext k
  apply htracks.outside
  rw [hdirty]
  exact Finset.notMem_empty k

/-- A state after a reset. -/
def afterReset (R : Reporter σ ε) (store : Option ε) : σ :=
  store.elim R.analysis.default fun f => R.analysis.attach f R.analysis.default

theorem inv_afterReset (t : R.Tracked) (store : Option ε) : t.Inv (afterReset R store) := by
  cases store with
  | none => exact t.inv_default
  | some f => exact (t.attach _ f t.inv_default).1

/-- A reset with nothing to report. -/
theorem Feed.reset (h : Feed t s published frames held)
    (hsnapshot : R.snapshot s = R.snapshot R.analysis.default)
    (hclean : (R.drainDelta s).2 = none) (store : Option ε) :
    Feed t (afterReset R store) published frames held := by
  have hdirty : t.dirty s = t.dirty R.analysis.default := by
    rw [t.dirty_default]
    by_contra hne
    obtain ⟨patch, hpatch, -⟩ := t.drain_dirty s h.inv hne
    rw [hclean] at hpatch
    cases hpatch
  have hempty : t.view R.analysis.default = fun _ => none := funext t.view_default
  have hview : t.view s = t.view R.analysis.default := by
    rw [t.snapshot_eq, t.snapshot_eq, hempty] at hsnapshot
    rw [hempty]
    funext k
    exact t.format.view_eq_empty _ hsnapshot k
  apply h.moves (inv_afterReset t store)
  rw [hdirty, hview]
  cases store with
  | none => exact Layout.Moves.refl _ _
  | some f => exact (t.attach _ f t.inv_default).2

end Feed

/-! ## The node -/

namespace Node

variable {cfg : Parsers}

/-- The frames among these that are of one report. -/
def framesOf (i : DeltaReport) (frames : List (DeltaReport × Json)) : List Json :=
  frames.filterMap fun f => if f.1 = i then some f.2 else none

/-- What is on its way to the subscriber. -/
def arriving (n : Node) (i : DeltaReport) : List Json :=
  (n.sub.elim [] fun s => s.queue i) ++ framesOf i n.sending

def heldOf (n : Node) (i : DeltaReport) : Option Json := n.sub.bind fun s => s.held i

structure Inv (cfg : Parsers) (n : Node) : Prop where
  feed : ∀ i : DeltaReport, Feed (i.tracked cfg) (n.state i) (n.published i) (n.arriving i) (n.heldOf i)
  clean : n.ticked = true → ∀ i : DeltaReport, (i.tracked cfg).dirty (n.state i) = ∅

theorem Inv.converged {n : Node} (h : n.Inv cfg) : n.Converged cfg := by
  intro hticked hsending s hs i j hj
  have hfeed := h.feed i
  have hheld : n.heldOf i = some j := by
    rw [heldOf, hs, Option.bind_some, hj]
  have harriving : n.arriving i = s.queue i := by
    rw [arriving, hs, hsending, Option.elim_some]
    exact List.append_nil _
  rw [← harriving]
  exact hfeed.converged (h.clean hticked i) hheld

theorem framesOf_cons (i j : DeltaReport) (patch : Json) (frames : List (DeltaReport × Json)) :
    framesOf i ((j, patch) :: frames) =
      (if j = i then [patch] else []) ++ framesOf i frames := by
  unfold framesOf
  rw [List.filterMap_cons]
  by_cases hji : j = i
  · rw [if_pos hji, if_pos hji]
    rfl
  · rw [if_neg hji, if_neg hji]
    rfl

/-- The frames of a drain, report by report. -/
theorem framesOf_drain (n : Node) (i : DeltaReport) :
    framesOf i (n.drain cfg).sending = (n.drained cfg i).toList := by
  have hall : ∀ l : List DeltaReport, l.Nodup →
      framesOf i (l.filterMap fun i => (n.drained cfg i).map fun patch => (i, patch)) =
        if i ∈ l then (n.drained cfg i).toList else [] := by
    intro l
    induction l with
    | nil => exact fun _ => rfl
    | cons j l ih =>
      intro hl
      rw [List.nodup_cons] at hl
      have hrest := ih hl.2
      have hcons : framesOf i ((j :: l).filterMap fun i =>
          (n.drained cfg i).map fun patch => (i, patch)) =
          (if j = i then (n.drained cfg j).toList else []) ++
            framesOf i (l.filterMap fun i => (n.drained cfg i).map fun patch => (i, patch)) := by
        rw [List.filterMap_cons]
        cases n.drained cfg j with
        | none => simp
        | some patch => exact framesOf_cons i j patch _
      rw [hcons, hrest]
      by_cases hji : j = i
      · subst hji
        rw [if_pos rfl, if_neg hl.1, if_pos List.mem_cons_self, List.append_nil]
      · have hmem : i ∈ j :: l ↔ i ∈ l := by
          rw [List.mem_cons]
          exact ⟨fun h => h.resolve_left fun hij => hji hij.symm, Or.inr⟩
        rw [if_neg hji, List.nil_append]
        simp only [hmem]
  have hi : i ∈ DeltaReport.all := by cases i <;> decide
  rw [drain, hall DeltaReport.all (by decide), if_pos hi]

theorem inv_fold {n : Node} (hn : n.Inv cfg) (handed : DeltaReport → Option Observed) :
    (n.fold cfg handed).Inv cfg := by
  constructor
  · intro i
    have hi := hn.feed i
    show Feed _ ((handed i).elim (n.state i) fun o =>
      ((i.reporter cfg).analysis.observe o.ev o.ctx o.store (n.state i)).1) _ _ _
    cases handed i with
    | none => exact hi
    | some o =>
      have hstep := (i.tracked cfg).observe _ o.ev o.ctx o.store hi.inv
      exact hi.moves hstep.1 hstep.2
  · intro h
    cases h

theorem inv_publish {n : Node} (hn : n.Inv cfg) : (n.publish cfg).Inv cfg :=
  ⟨fun i => (hn.feed i).publish, hn.clean⟩

theorem inv_drain {n : Node} (hn : n.Inv cfg) (hsending : n.sending = []) :
    (n.drain cfg).Inv cfg := by
  constructor
  · intro i
    have hi := (hn.feed i).drain
    have harriving : (n.drain cfg).arriving i = n.arriving i ++ (n.drained cfg i).toList := by
      rw [arriving, framesOf_drain, arriving, hsending]
      show _ = (_ ++ []) ++ _
      rw [List.append_nil]
      rfl
    rw [harriving]
    exact hi
  · intro _ i
    exact (i.tracked cfg).dirty_drain _

/-- A frame goes out. -/
theorem inv_send {n : Node} (hn : n.Inv cfg) {i : DeltaReport} {patch : Json}
    {rest : List (DeltaReport × Json)} (hsending : n.sending = (i, patch) :: rest) :
    ({ n with
        sending := rest
        sub := n.sub.map fun s =>
          { s with queue := Function.update s.queue i (s.queue i ++ [patch]) } } : Node).Inv
      cfg := by
  refine ⟨?_, hn.clean⟩
  intro j
  have hj := hn.feed j
  have hframes : framesOf j n.sending = (if i = j then [patch] else []) ++ framesOf j rest := by
    rw [hsending, framesOf_cons]
  cases hsub : n.sub with
  | none =>
    -- nobody gets it
    rw [arriving, heldOf, hsub, hframes] at hj
    have hframe : Feed (j.tracked cfg) (n.state j) (n.published j)
        ((if i = j then [patch] else []) ++ framesOf j rest) none := hj
    exact hframe.subscribe
  | some s =>
    rw [arriving, heldOf, hsub, hframes, Option.elim_some, Option.bind_some] at hj
    have hqueue : Function.update s.queue i (s.queue i ++ [patch]) j =
        s.queue j ++ if i = j then [patch] else [] := by
      by_cases hij : i = j
      · subst hij
        rw [Function.update_self, if_pos rfl]
      · rw [Function.update_of_ne (Ne.symm hij), if_neg hij, List.append_nil]
    show Feed _ _ _ (Function.update s.queue i (s.queue i ++ [patch]) j ++ framesOf j rest)
      (s.held j)
    rw [hqueue, List.append_assoc]
    exact hj

/-- A reset that takes nothing away from the subscriber, and the publish after it. -/
theorem inv_reset {n : Node} (hn : n.Inv cfg) (hsending : n.sending = [])
    {doomed : DeltaReport → Bool} (hok : ∀ i, doomed i = true → n.Unseen cfg i)
    (store : Option FirstSeen) : ((n.reset cfg doomed store).publish cfg).Inv cfg := by
  refine ⟨?_, fun h => by cases h⟩
  intro i
  have hi := hn.feed i
  cases hdoomed : doomed i with
  | false =>
    have hstate : (n.reset cfg doomed store).state i = n.state i := by
      show (if doomed i then _ else _) = _
      rw [hdoomed]
      rfl
    have hpublish := hi.publish
    rw [← hstate] at hpublish
    exact hpublish
  | true =>
    have hstate : (n.reset cfg doomed store).state i = afterReset (i.reporter cfg) store := by
      show (if doomed i then _ else _) = _
      rw [hdoomed]
      rfl
    show Feed _ ((n.reset cfg doomed store).state i)
      (some ((i.reporter cfg).snapshot ((n.reset cfg doomed store).state i))) (n.arriving i)
      (n.heldOf i)
    rw [hstate]
    rcases hok i hdoomed with ⟨hsnapshot, hclean⟩ | hunseen
    · exact (hi.reset hsnapshot hclean store).publish
    · -- nothing held and nothing on its way
      have harriving : n.arriving i = [] := by
        rw [arriving, hsending]
        cases hsub : n.sub with
        | none => rfl
        | some s =>
          show s.queue i ++ [] = []
          rw [(hunseen s hsub).1, List.append_nil]
      have hheld : n.heldOf i = none := by
        rw [heldOf]
        cases hsub : n.sub with
        | none => rfl
        | some s => exact (hunseen s hsub).2
      rw [harriving, hheld]
      exact feed_published (inv_afterReset (i.tracked cfg) store)

theorem inv_subscribe {n : Node} (hn : n.Inv cfg) :
    ({ n with sub := some { queue := fun _ => [], held := fun _ => none } } : Node).Inv cfg :=
  ⟨fun i => (hn.feed i).subscribe, hn.clean⟩

theorem inv_seed {n : Node} (hn : n.Inv cfg) {s : Subscriber} (hs : n.sub = some s)
    {i : DeltaReport} {report : Json} (hreport : n.published i = some report) :
    ({ n with sub := some { s with held := Function.update s.held i (some report) } } : Node).Inv
      cfg := by
  refine ⟨?_, hn.clean⟩
  intro j
  have hj := hn.feed j
  rw [arriving, heldOf, hs] at hj
  show Feed _ _ _ (s.queue j ++ framesOf j n.sending) (Function.update s.held i (some report) j)
  by_cases hji : j = i
  · subst hji
    rw [Function.update_self, ← hreport]
    exact hj.seed
  · rw [Function.update_of_ne hji]
    exact hj

theorem inv_receive {n : Node} (hn : n.Inv cfg) {s : Subscriber} (hs : n.sub = some s)
    {i : DeltaReport} {patch h : Json} {rest : List Json} (hqueue : s.queue i = patch :: rest)
    (hheld : s.held i = some h) :
    ({ n with
        sub := some
          { queue := Function.update s.queue i rest
            held := Function.update s.held i (some (Json.mergePatch patch h)) } } : Node).Inv
      cfg := by
  refine ⟨?_, hn.clean⟩
  intro j
  have hj := hn.feed j
  rw [arriving, heldOf, hs, Option.elim_some, Option.bind_some] at hj
  show Feed _ _ _ (Function.update s.queue i rest j ++ framesOf j n.sending)
    (Function.update s.held i (some (Json.mergePatch patch h)) j)
  by_cases hji : j = i
  · subst hji
    rw [hqueue, hheld] at hj
    rw [Function.update_self, Function.update_self]
    exact hj.receive
  · rw [Function.update_of_ne hji, Function.update_of_ne hji]
    exact hj

theorem inv_step {n n' : Node} {a : Action} (hn : n.Inv cfg) (hok : n.ResetsUnseen cfg a)
    (h : n.step cfg a = some n') : n'.Inv cfg := by
  cases a with
  | event handed =>
    rw [step] at h
    split at h
    · cases h
      have hfold := inv_fold hn handed
      exact ⟨hfold.feed, hfold.clean⟩
    · cases h
  | replay handed =>
    cases h
    exact inv_fold hn handed
  | commitTick =>
    rw [step] at h
    split at h
    · split at h
      · cases h
        -- `commitTick` clears the mark as well
        have hpublish := inv_publish hn
        exact ⟨hpublish.feed, hpublish.clean⟩
      · cases h
        exact hn
    · cases h
  | deltaTick =>
    rw [step] at h
    split at h
    case isTrue hsending =>
      cases h
      exact inv_drain hn hsending
    case isFalse => cases h
  | send =>
    rw [step] at h
    split at h
    · cases h
    case h_2 i patch rest hsending =>
      cases h
      exact inv_send hn hsending
  | resetAll store =>
    rw [step] at h
    split at h
    case isTrue hsending =>
      cases h
      exact inv_reset hn hsending (fun i _ => hok i) store
    case isFalse => cases h
  | resetAnalysis name store =>
    rw [step] at h
    split at h
    case isTrue hsending =>
      cases h
      exact inv_reset hn hsending hok store
    case isFalse => cases h
  | subscribe =>
    cases h
    exact inv_subscribe hn
  | seed i =>
    rw [step] at h
    split at h
    case h_1 s report hs hreport =>
      cases h
      exact inv_seed hn hs hreport
    case h_2 => cases h
  | receive i =>
    rw [step] at h
    split at h
    · cases h
    case h_2 s hs =>
      split at h
      case h_1 patch rest j hqueue hheld =>
        cases h
        exact inv_receive hn hs hqueue hheld
      case h_2 => cases h

theorem inv_boot {state : (i : DeltaReport) → i.State} (h : Booted cfg state) :
    (boot cfg state).Inv cfg := by
  refine ⟨?_, fun h => by cases h⟩
  intro i
  obtain ⟨s, store, hs, hstate⟩ := h i
  have hinv : (i.tracked cfg).Inv (state i) := by
    rw [hstate]
    exact ((i.tracked cfg).attach _ store ((i.tracked cfg).inv_restored s
      ((i.tracked cfg).inv_reached hs))).1
  exact feed_published hinv

/-- However events, replays, ticks, resets and the subscriber's steps interleave: if no reset takes
anything away from the subscriber, it has after every delta tick, once it has merged its frames,
the snapshot of each report it took a seed of. -/
theorem subscriber_converges (cfg : Parsers) (state : (i : DeltaReport) → i.State)
    (hboot : Booted cfg state) (as : List Action)
    (hok : Along (step cfg) (ResetsUnseen cfg) (boot cfg state) as) :
    ∀ n, Visited (step cfg) (boot cfg state) as n → n.Converged cfg := by
  intro n hn
  have hinv : n.Inv cfg :=
    visited_invariant (fun s a s' hs hok hstep => inv_step hs hok hstep) (inv_boot hboot) hok hn
  exact hinv.converged

/-! ### A reset before the seed, and one after it -/

private def noZaps : Parsers :=
  { zaps := { fromStr := fun _ => none, amountPicoBtc := fun _ => none }
    len := fun _ => 0
    lower := id }

private def newStates (i : DeltaReport) : i.State :=
  (i.reporter noZaps).analysis.attach FirstSeen.empty
    ((i.reporter noZaps).analysis.restored (i.reporter noZaps).analysis.default)

private theorem booted_newStates : Booted noZaps newStates :=
  fun _ => ⟨_, FirstSeen.empty, Reporter.Reached.default, rfl⟩

/-- A note without a client tag, for `client_tags`. -/
private def untagged : Action :=
  .event fun i =>
    if i = .clientTags then
      some
        { ev := { id := "", pubkey := "", createdAt := 0, kind := 1, tags := [], content := ""
                  sig := "" }
          ctx := { now := 0, author := Vector.replicate 32 0, eventId := Vector.replicate 32 0
                   world := World.empty }
          store := FirstSeen.empty }
    else none

private def resetThenSeed : List Action :=
  [untagged, .commitTick, .resetAnalysis "client_tags" none, .subscribe, .seed .clientTags,
    untagged, .deltaTick, .send, .receive .clientTags]

private def seedThenReset : List Action :=
  [untagged, .commitTick, .subscribe, .seed .clientTags, .resetAnalysis "client_tags" none,
    .deltaTick]

private def nobodyB (n : Node) : Action → Bool
  | .resetAll _ => n.sub.isNone
  | .resetAnalysis _ _ => n.sub.isNone
  | _ => true

private theorem resetsUnseen_of_nobodyB (n : Node) (a : Action) (h : nobodyB n a = true) :
    n.ResetsUnseen noZaps a := by
  have hnone : n.sub.isNone = true → ∀ i, n.Unseen noZaps i := by
    intro hsub i
    right
    intro s hs
    rw [hs] at hsub
    cases hsub
  cases a with
  | resetAll => exact hnone h
  | resetAnalysis => exact fun i _ => hnone h i
  | event | replay | commitTick | deltaTick | send | subscribe | seed | receive => trivial

/-- A subscriber that takes its seed after the reset converges. -/
theorem reset_then_seed_converges :
    Along (step noZaps) (ResetsUnseen noZaps) (boot noZaps newStates) resetThenSeed ∧
      ∀ n, Visited (step noZaps) (boot noZaps newStates) resetThenSeed n →
        n.Converged noZaps := by
  have halong : Along (step noZaps) (ResetsUnseen noZaps) (boot noZaps newStates)
      resetThenSeed := along_of_alongB resetsUnseen_of_nobodyB (by decide +kernel)
  exact ⟨halong, subscriber_converges noZaps newStates booted_newStates resetThenSeed halong⟩

/-- A reset says nothing of the keys it takes out, and the subscriber keeps them. -/
theorem reset_leaves_keys :
    ¬ ∀ (cfg : Parsers) (state : (i : DeltaReport) → i.State), Booted cfg state →
      ∀ (as : List Action) (n : Node), Visited (step cfg) (boot cfg state) as n →
        n.Converged cfg := by
  intro h
  have hafter : ((run (step noZaps) (boot noZaps newStates) seedThenReset).any fun n =>
      n.ticked && n.sending.isEmpty && n.sub.any fun s => (s.held .clientTags).any fun j =>
        ((mergedAll (s.queue .clientTags) j).get NO_CLIENT).isSome &&
          (((Clients.reporter noZaps.lower : Reporter Clients FirstSeen).snapshot
            (n.state .clientTags)).get NO_CLIENT).isNone) = true := by decide +kernel
  obtain ⟨n, hn⟩ : ∃ n, run (step noZaps) (boot noZaps newStates) seedThenReset = some n :=
    Option.isSome_iff_exists.mp (by decide +kernel)
  rw [hn, Option.any_some, Bool.and_eq_true, Bool.and_eq_true] at hafter
  obtain ⟨⟨hticked, hsending⟩, hsub⟩ := hafter
  obtain ⟨s, hs, hheld⟩ := Option.any_eq_true _ _ |>.mp hsub
  obtain ⟨j, hj, hkeys⟩ := Option.any_eq_true _ _ |>.mp hheld
  have hconverged := h noZaps newStates booted_newStates seedThenReset n
    ⟨seedThenReset, List.prefix_rfl, hn⟩ hticked (List.isEmpty_iff.mp hsending) s hs .clientTags
    j hj
  rw [Bool.and_eq_true, hconverged] at hkeys
  obtain ⟨x, hx⟩ := Option.isSome_iff_exists.mp hkeys.1
  have hclash : some x = none := hx.symm.trans (Option.isNone_iff_eq_none.mp hkeys.2)
  cases hclash

end Node

end NostrSearch.Server
