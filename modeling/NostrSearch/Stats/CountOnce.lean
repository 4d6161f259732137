import NostrSearch.Lib.Run
import NostrSearch.Stats.Folding

/-!
# Count-once on the live path

`Registry::observe` is the ordered path: an event is handed to an analysis when its id is not
in the boundary set and its date is not too far below the watermark, and `advance_bounded`
puts the id into the set. It does so only up to `now + FUTURE_SKEW_SECS`. An event dated later
than that is handed over and forgotten, so a repeat is handed over again.

That is the only way an event counts twice (`handed_once_iff`): each id is handed to each
analysis at most once if and only if no repeat of an event that was dated ahead when it was
handed over comes while the gate is open.
-/

namespace NostrSearch.Stats

open NostrSearch.Core NostrSearch.Lib

variable {σ ε : Type}

/-- One call of `Registry::observe`. -/
structure Observation where
  ev : NostrEvent
  now : ℕ
  world : World

/-- The id an event is folded under, if its keys are well formed. -/
def Observation.id (o : Observation) : Option EventId := (Registry.keysOf o.ev).map Prod.snd

def observeStep (r : Registry σ ε) (o : Observation) : Option (Registry σ ε) :=
  some (r.observe o.ev o.now o.world)

/-- The ids an analysis was handed, in order. -/
def Entry.handedIds (e : Entry σ ε) : List EventId := e.log.map fun h => h.ctx.eventId

/-- The call was dated beyond what the clock allowed when it was made. -/
def Handed.Ahead (h : Handed) : Prop := satAdd h.ctx.now futureSkewSecs < h.ev.createdAt

/-- The condition for counting once: an id that was handed to an analysis dated ahead does not
come again while the gate is open to an event the analysis wants. -/
def NoRepeatAhead (r : Registry σ ε) (o : Observation) : Prop :=
  ∀ author id, Registry.keysOf o.ev = some (author, id) →
    ∀ e ∈ r.entries, e.analysis.wants o.ev → e.progress.shouldConsume o.ev.createdAt id →
      ∀ h ∈ e.log, h.ctx.eventId = id → ¬ h.Ahead

/-- What counting once rests on, with `ids` the ids that occur. -/
structure Entry.OnceInv (ids : Finset EventId) (e : Entry σ ε) : Prop where
  boundary : e.progress.boundary ⊆ ids
  nodup : e.handedIds.Nodup
  recorded : ∀ h ∈ e.log, h.ctx.eventId ∈ e.progress.boundary ∨ h.Ahead

/-- The boundary set after an ordered turn: below the cap it only grows. -/
theorem boundary_advanceBounded {ids : Finset EventId} {p : Progress} {createdAt maxTs : ℕ}
    {id : EventId} (hids : ids.card < maxBoundary) (hp : p.boundary ⊆ ids) :
    (p.advanceBounded createdAt id maxTs).boundary =
      if maxTs < createdAt then p.boundary else insert id p.boundary := by
  by_cases h : maxTs < createdAt
  · rw [if_pos h, p.advanceBounded_of_lt id h]
  · have hcard : ¬ maxBoundary ≤ p.boundary.card := by
      have := Finset.card_le_card hp
      omega
    rw [if_neg h, p.advanceBounded_of_le id (Nat.not_lt.mp h), Progress.advance, if_neg hcard]

theorem ordered_live (e : Entry σ ε) : e.ordered .live = true := by
  simp [Entry.ordered]

theorem admits_live {e : Entry σ ε} {ev : NostrEvent} {id : EventId} :
    e.admits .live ev id = e.progress.shouldConsume ev.createdAt id := by
  rw [Entry.admits, ordered_live]
  rfl

/-- One turn of a live fold keeps the invariant, if it is not a repeat of an event handed over
ahead of time. -/
theorem Entry.OnceInv.folded {ids : Finset EventId} {e e' : Entry σ ε} {ev : NostrEvent}
    {ctx : AnalysisCtx} (he : e.OnceInv ids) (hcard : ids.card < maxBoundary)
    (hid : ctx.eventId ∈ ids) (hf : Entry.Folded .live ev ctx e e')
    (hok : e.analysis.wants ev → ∀ h ∈ e.log, h.ctx.eventId = ctx.eventId → ¬ h.Ahead) :
    e'.OnceInv ids := by
  have hgate := hf.admits
  rw [admits_live, Progress.shouldConsume_iff] at hgate
  have hboundary := hf.boundary
  rw [if_pos (ordered_live e), boundary_advanceBounded hcard he.boundary] at hboundary
  -- whatever was recorded stays recorded
  have hgrow : e.progress.boundary ⊆ e'.progress.boundary := by
    rw [hboundary]
    split
    · exact Finset.Subset.refl _
    · exact Finset.subset_insert _ _
  have hsub : e'.progress.boundary ⊆ ids := by
    rw [hboundary]
    split
    · exact he.boundary
    · exact Finset.insert_subset hid he.boundary
  by_cases hw : e.analysis.wants ev
  · have hlog := hf.log
    rw [if_pos hw] at hlog
    refine ⟨hsub, ?_, ?_⟩
    · have hnew : ctx.eventId ∉ e.handedIds := by
        intro hmem
        obtain ⟨h, hh, heq⟩ := List.mem_map.mp hmem
        rcases he.recorded h hh with hb | hahead
        · rw [heq] at hb
          exact hgate.2 hb
        · exact hok hw h hh heq hahead
      rw [handedIds, hlog, List.map_append, List.map_cons, List.map_nil]
      exact List.nodup_append.mpr ⟨he.nodup, List.nodup_singleton _, fun a ha b hb heq => by
        rw [List.mem_singleton] at hb
        exact hnew (hb ▸ heq ▸ ha)⟩
    · intro h hh
      rw [hlog] at hh
      rcases List.mem_append.mp hh with hold | hnew
      · exact (he.recorded h hold).imp_left fun hb => hgrow hb
      · rw [List.mem_singleton] at hnew
        subst hnew
        by_cases hahead : satAdd ctx.now futureSkewSecs < ev.createdAt
        · exact Or.inr hahead
        · left
          rw [hboundary, if_neg hahead]
          exact Finset.mem_insert_self _ _
  · have hlog := hf.log
    rw [if_neg hw] at hlog
    refine ⟨hsub, ?_, ?_⟩
    · rw [handedIds, hlog]
      exact he.nodup
    · intro h hh
      rw [hlog] at hh
      exact (he.recorded h hh).imp_left fun hb => hgrow hb

/-- A turn never takes a repeated id out of a log. -/
theorem not_nodup_foldOr {e : Entry σ ε} {mode : FoldMode} {ev : NostrEvent} {ctx : AnalysisCtx}
    (ext : ε) (h : ¬ e.handedIds.Nodup) : ¬ (e.foldOr mode ev ctx ext).handedIds.Nodup := by
  unfold Entry.foldOr
  cases hf : e.fold mode ev ctx ext with
  | none => exact h
  | some p =>
    have hlog := (Entry.folded_of_fold hf).log
    intro hnodup
    apply h
    rw [Option.elim_some, Entry.handedIds, hlog] at hnodup
    split at hnodup
    · rw [List.map_append] at hnodup
      exact (List.nodup_append.mp hnodup).1
    · exact hnodup

/-- A turn at an entry that has the id already, and is open to the event, repeats it. -/
theorem not_nodup_of_repeat {e : Entry σ ε} {ev : NostrEvent} {ctx : AnalysisCtx} (ext : ε)
    (h : e.analysis.wants ev ∧ e.progress.shouldConsume ev.createdAt ctx.eventId ∧
      ctx.eventId ∈ e.handedIds) :
    ¬ (e.foldOr .live ev ctx ext).handedIds.Nodup := by
  obtain ⟨hw, hgate, hmem⟩ := h
  obtain ⟨p, hp⟩ := Option.isSome_iff_exists.mp
    (Entry.fold_isSome.mpr (admits_live.trans hgate) : (e.fold .live ev ctx ext).isSome)
  have hlog := (Entry.folded_of_fold hp).log
  rw [if_pos hw] at hlog
  rw [Entry.foldOr, hp, Option.elim_some, Entry.handedIds, hlog, List.map_append]
  intro hnodup
  exact (List.nodup_append.mp hnodup).2.2 _ hmem _ (List.mem_singleton_self _) rfl

/-- The invariant of a whole registry. -/
def OnceInv (ids : Finset EventId) (r : Registry σ ε) : Prop := ∀ e ∈ r.entries, e.OnceInv ids

theorem onceInv_start (as : List (DynAnalysis σ ε)) (ext : ε) (ids : Finset EventId) :
    OnceInv ids (Registry.ofAnalyses as ext) := by
  intro e he
  obtain ⟨a, -, rfl⟩ := List.mem_map.mp he
  exact ⟨Finset.empty_subset _, List.nodup_nil, fun h hh => absurd hh List.not_mem_nil⟩

theorem onceInv_step {ids : Finset EventId} (hcard : ids.card < maxBoundary) {r : Registry σ ε}
    {o : Observation} (hr : OnceInv ids r) (ho : ∀ id ∈ o.id, id ∈ ids) (hok : NoRepeatAhead r o) :
    OnceInv ids (r.observe o.ev o.now o.world) := by
  intro e' he'
  obtain ⟨e, he, rfl | ⟨author, id, hkeys, hf⟩⟩ := Registry.fold_origin r.nodup_all he'
  · exact hr e' he
  · have hid : id ∈ ids := ho id (by rw [Observation.id, hkeys]; rfl)
    have hgate := hf.admits
    rw [admits_live] at hgate
    exact (hr e he).folded hcard hid hf fun hw => hok author id hkeys e he hw hgate

/-- Outside the condition a repeat is handed over. -/
theorem not_nodup_step {r : Registry σ ε} {o : Observation} (hbad : ¬ NoRepeatAhead r o) :
    ∃ e ∈ (r.observe o.ev o.now o.world).entries, ¬ e.handedIds.Nodup := by
  unfold NoRepeatAhead at hbad
  push Not at hbad
  obtain ⟨author, id, hkeys, e, he, hw, hgate, h, hh, heq, -⟩ := hbad
  obtain ⟨i, hi⟩ := List.mem_iff_getElem?.mp he
  have hmem : id ∈ e.handedIds := List.mem_map.mpr ⟨h, hh, heq⟩
  exact Registry.fold_establishes hkeys (fun _ ext => not_nodup_of_repeat ext)
    (fun _ ext => not_nodup_foldOr ext) (Registry.mem_all hi) hi ⟨hw, hgate, hmem⟩

/-- **Count-once, exactly.** Starting fresh, with fewer than `MAX_BOUNDARY` ids occurring: in
every state a sequence of `observe` calls goes through, every analysis has been handed each id
at most once, if and only if no event that was handed over dated ahead is repeated while the
gate is open. -/
theorem handed_once_iff (as : List (DynAnalysis σ ε)) (ext : ε) (calls : List Observation)
    (hids : (calls.filterMap Observation.id).toFinset.card < maxBoundary) :
    (∀ r, Visited observeStep (Registry.ofAnalyses as ext) calls r →
      ∀ e ∈ r.entries, e.handedIds.Nodup) ↔
    Along observeStep NoRepeatAhead (Registry.ofAnalyses as ext) calls := by
  set ids := (calls.filterMap Observation.id).toFinset with hidsdef
  have hp : ∀ o ∈ calls, ∀ id ∈ o.id, id ∈ ids := by
    intro o ho id hid
    rw [hidsdef, List.mem_toFinset]
    exact List.mem_filterMap.mpr ⟨o, ho, hid⟩
  refine visited_iff_along ?_ ?_ ?_ (onceInv_start as ext ids) hp
  · intro r o r' hr ho hok hstep
    cases hstep
    exact onceInv_step hids hr ho hok
  · exact fun r hr e he => (hr e he).nodup
  · intro r o r' _ _ hbad hstep hP
    cases hstep
    obtain ⟨e, he, hdup⟩ := not_nodup_step hbad
    exact hdup (hP e he)

/-! ## A repeat dated ahead -/

section Runs

/-- An analysis that counts the events it is handed. -/
private def counting : DynAnalysis ℕ Unit :=
  { name := "counting", epoch := 0, deps := [], refreshInterval := none, kinds := none
    default := 0, attach := fun _ n => n, observe := fun _ _ _ n => (n + 1, (), true)
    refresh := fun _ n => n, contribute := fun _ w => w, onReset := fun _ _ => ()
    restored := fun n => n }

private def dated (createdAt : ℕ) : Observation :=
  { ev :=
      { id := "5c83da77af1dec6d7289834998ad7aafbd9e2191396d75ec3cc27f5a77226f36"
        pubkey := "f7234bd4c1394dda46d09f35bd384dd30cc552ad5541990f98844fb06676e9ca"
        createdAt := createdAt, kind := 1, tags := [], content := "", sig := "" }
    now := 1700000000
    world := World.empty }

private def aheadTwice : List Observation := [dated 9999999999, dated 9999999999]

private def onTimeTwice : List Observation := [dated 1700000000, dated 1700000000]

/-- Nothing was handed over ahead of time. -/
private def noneAhead (r : Registry ℕ Unit) (_ : Observation) : Bool :=
  r.entries.all fun e => e.log.all fun h => decide (h.ev.createdAt ≤ satAdd h.ctx.now futureSkewSecs)

private theorem noRepeatAhead_of_noneAhead (r : Registry ℕ Unit) (o : Observation)
    (h : noneAhead r o = true) : NoRepeatAhead r o := by
  intro author id _ e he _ _ c hc _ hahead
  have hle := List.all_eq_true.mp (List.all_eq_true.mp h e he) c hc
  rw [decide_eq_true_eq] at hle
  exact absurd hahead (Nat.not_lt.mpr hle)

/-- An event of today that comes twice is handed over once. -/
theorem on_time_counts_once :
    Along observeStep NoRepeatAhead (Registry.ofAnalyses [counting] ()) onTimeTwice ∧
      ∀ r, Visited observeStep (Registry.ofAnalyses [counting] ()) onTimeTwice r →
        ∀ e ∈ r.entries, e.handedIds.Nodup := by
  have halong : Along observeStep NoRepeatAhead (Registry.ofAnalyses [counting] ()) onTimeTwice :=
    along_of_alongB noRepeatAhead_of_noneAhead (by decide +kernel)
  exact ⟨halong, (handed_once_iff [counting] () onTimeTwice (by decide +kernel)).mpr halong⟩

/-- An event dated ahead is handed over every time it comes. -/
theorem ahead_counts_twice :
    ¬ ∀ (calls : List Observation),
      (calls.filterMap Observation.id).toFinset.card < maxBoundary →
      calls.Pairwise (fun a b => a.now ≤ b.now) →
      (∀ o ∈ calls, o.ev.createdAt + liveLagSecs ≤ u64Max) →
      ∀ r, run observeStep (Registry.ofAnalyses [counting] ()) calls = some r →
        ∀ e ∈ r.entries, e.handedIds.Nodup := by
  intro h
  have h2 := h aheadTwice (by decide +kernel) (by decide +kernel) (by decide +kernel) _ rfl
  revert h2
  decide +kernel

end Runs

end NostrSearch.Stats
