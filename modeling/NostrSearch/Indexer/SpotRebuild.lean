import NostrSearch.Indexer.LiveResets
import NostrSearch.Indexer.PassPlan
import NostrSearch.Stats.Cascade
import NostrSearch.Stats.Pagerank

/-!
# Rebuilding on the spot

An analysis like pagerank consumes no events: it is derived from what another one keeps on disk.
When the operator resets it, the node asks `names_need_corpus` whether what was reset with it can
do without the archive, and if so refreshes it at once and starts no replay.

`rebuilt_as_replayed` is about that decision and that shortcut. The answer is exact: the archive is
left out if and only if none of the analyses that were reset consumes events. And the shortcut
leaves what a replay would: on a node that has consumed its archive, any run of ingests hands out
nothing, leaves the external store alone, and gives each of these analyses, once its pass is over,
the state that `refresh_now` has given it at once. `Since` is what a run keeps of each entry.
-/

namespace NostrSearch.Stats

open NostrSearch.Core

variable {σ ε : Type}

namespace Entry

/-- The refresh of the entry is due, whatever its schedule. -/
def overdue (e : Entry σ ε) : Entry σ ε :=
  { e with progress := { e.progress with lastRefreshWall := 0 } }

/-- The state of the entry after a refresh, if its analysis has one. -/
def rederived (e : Entry σ ε) (ext : ε) : σ :=
  if e.analysis.refreshInterval.isSome then e.analysis.refresh ext e.state else e.state

end Entry

namespace Registry

variable {r : Registry σ ε}

/-- Materializing refreshes each entry as often as it is in the stage, on the one store. -/
theorem materializeStage_getElem (r : Registry σ ε) (stage : List ℕ) (nowWall : ℕ)
    (world : World) :
    (r.materializeStage stage nowWall world).1.ext = r.ext ∧
      ∀ j, (r.materializeStage stage nowWall world).1.entries[j]? =
        r.entries[j]?.map (refreshEntry nowWall r.ext)^[stage.count j] := by
  unfold materializeStage
  induction stage generalizing r world with
  | nil => exact ⟨rfl, fun j => Option.map_id_apply.symm⟩
  | cons i stage ih =>
    rw [List.foldl_cons]
    obtain ⟨hext, hget⟩ := ih (r.modify i (refreshEntry nowWall r.ext))
      ((r.modify i (refreshEntry nowWall r.ext)).entries[i]?.elim world
        fun e => e.analysis.contribute e.state world)
    refine ⟨hext, fun j => (hget j).trans ?_⟩
    rw [modify_getElem]
    by_cases hij : i = j
    · subst hij
      rw [if_pos rfl, Option.map_map, List.count_cons_self, Function.iterate_succ]
      rfl
    · rw [if_neg hij, List.count_cons_of_ne hij]
      rfl

/-- `materialize_all` refreshes each entry some number of times. -/
theorem materializeAll_getElem {nowWall : ℕ} {world : World} {m : Registry σ ε × World}
    (h : r.materializeAll nowWall world = .ok m) :
    m.1.ext = r.ext ∧ ∀ j : ℕ, ∃ k, m.1.entries[j]? =
      r.entries[j]?.map (refreshEntry nowWall r.ext)^[k] := by
  unfold materializeAll at h
  split at h
  case h_1 => cases h
  case h_2 stages hstages =>
    cases h
    have hloop : ∀ (stages : List (List ℕ)) (acc : Registry σ ε × World), acc.1.ext = r.ext →
        (∀ j : ℕ, ∃ k, acc.1.entries[j]? = r.entries[j]?.map (refreshEntry nowWall r.ext)^[k]) →
        let m := stages.foldl (fun acc stage => acc.1.materializeStage stage nowWall acc.2) acc
        m.1.ext = r.ext ∧
          ∀ j : ℕ, ∃ k, m.1.entries[j]? = r.entries[j]?.map (refreshEntry nowWall r.ext)^[k] := by
      intro stages
      induction stages with
      | nil => exact fun acc hext hget => ⟨hext, hget⟩
      | cons stage stages ih =>
        intro acc hext hget
        obtain ⟨hext', hget'⟩ := acc.1.materializeStage_getElem stage nowWall acc.2
        refine ih _ (hext'.trans hext) fun j => ?_
        obtain ⟨k, hk⟩ := hget j
        refine ⟨stage.count j + k, ?_⟩
        rw [hget' j, hk, hext, Option.map_map, Function.iterate_add]
    exact hloop stages (r, world) rfl fun j => ⟨0, Option.map_id_apply.symm⟩

/-- The entries are changed, the store is not. -/
theorem ext_foldl_modify (f : Entry σ ε → Entry σ ε) (stage : List ℕ) (r : Registry σ ε) :
    (stage.foldl (fun r i => r.modify i f) r).ext = r.ext := by
  induction stage generalizing r with
  | nil => rfl
  | cons i stage ih =>
    rw [List.foldl_cons, ih]
    rfl

end Registry

end NostrSearch.Stats

namespace NostrSearch.Indexer

open NostrSearch.Core NostrSearch.Lib NostrSearch.Stats

namespace Pipeline

variable {σ ε : Type}

variable {p p' : Pipeline σ ε} {name : String} {gone : List String}

end Pipeline

/-! ## What a run keeps of an entry -/

section since

variable {σ ε : Type} {ext : ε} {e e' : Entry σ ε}

/-- What has become of an entry, on a store that is as it was. An analysis that was backfilled is
where it was in the stream; one that was not has the state it had, with its refresh due, or its
state derived anew. -/
structure Since (ext : ε) (e e' : Entry σ ε) : Prop where
  analysis : e'.analysis = e.analysis
  log : e'.log = e.log
  gate : e.needsBackfill = false → e'.needsBackfill = false ∧
    e'.progress.watermark = e.progress.watermark ∧ e'.progress.boundary = e.progress.boundary
  derived : e.needsBackfill = true →
    e'.state = e.state ∧ e'.progress.lastRefreshWall = 0 ∧ e'.needsBackfill = true ∨
      e'.state = e.rederived ext

/-- What an entry is when nothing is left to be handed to it. -/
structure Spot (archive : List ArchiveFile) (e : Entry σ ε) : Prop where
  kinds : e.needsBackfill = true → e.analysis.kinds = some []
  wall : e.needsBackfill = true → e.progress.lastRefreshWall = 0
  idem : e.needsBackfill = true → ∀ ext s,
    e.analysis.refresh ext (e.analysis.refresh ext s) = e.analysis.refresh ext s
  gate : e.needsBackfill = false → ∀ f ∈ archive, ∀ ev ∈ f.events, ∀ author id,
    Registry.keysOf ev = some (author, id) → e.progress.shouldConsume ev.createdAt id = false

theorem Since.refl (hwall : e.needsBackfill = true → e.progress.lastRefreshWall = 0) :
    Since ext e e :=
  ⟨rfl, rfl, fun h => ⟨h, rfl, rfl⟩, fun h => Or.inl ⟨rfl, hwall h, h⟩⟩

/-- A change of the record of files. -/
theorem Since.of_eq {e'' : Entry σ ε} (h : Since ext e e') (hanalysis : e''.analysis = e'.analysis)
    (hlog : e''.log = e'.log) (hstate : e''.state = e'.state)
    (hbackfilled : e''.needsBackfill = e'.needsBackfill)
    (hwall : e''.progress.lastRefreshWall = e'.progress.lastRefreshWall)
    (hgate : e.needsBackfill = false → e''.progress.watermark = e'.progress.watermark ∧
      e''.progress.boundary = e'.progress.boundary) : Since ext e e'' where
  analysis := hanalysis.trans h.analysis
  log := hlog.trans h.log
  gate := fun hdone => ⟨hbackfilled.trans (h.gate hdone).1,
    (hgate hdone).1.trans (h.gate hdone).2.1, (hgate hdone).2.trans (h.gate hdone).2.2⟩
  derived := fun hpending => by
    rw [hstate, hwall, hbackfilled]
    exact h.derived hpending

/-- One turn of a replay's fold: the gate is closed, or the analysis wants no event. -/
theorem Since.fold {archive : List ArchiveFile} {f : ArchiveFile} {ev : NostrEvent}
    {ctx : AnalysisCtx} {author : Pubkey} {r : Entry σ ε × ε} (hs : Spot archive e)
    (h : Since ext e e') (hf : f ∈ archive) (hev : ev ∈ f.events)
    (hkeys : Registry.keysOf ev = some (author, ctx.eventId))
    (hfold : e'.fold .backfill ev ctx ext = some r) : Since ext e r.1 ∧ r.2 = ext := by
  unfold Entry.fold at hfold
  split at hfold
  case isFalse => cases hfold
  case isTrue hadm =>
    cases hdone : e.needsBackfill with
    | false =>
      -- what is in the archive is behind the watermark
      obtain ⟨hdone', hmark, hboundary⟩ := h.gate hdone
      have hclosed := hs.gate hdone f hf ev hev author ctx.eventId hkeys
      have hsame : e'.progress.shouldConsume ev.createdAt ctx.eventId =
          e.progress.shouldConsume ev.createdAt ctx.eventId := by
        rw [Progress.shouldConsume, Progress.shouldConsume, hmark, hboundary]
      rw [Entry.admits, Entry.ordered, hdone', hsame, hclosed] at hadm
      cases hadm
    | true =>
      have hwants : e'.analysis.wants ev = false := by
        rw [DynAnalysis.wants, h.analysis, hs.kinds hdone]
        rfl
      rw [hwants] at hfold
      cases hfold
      refine ⟨h.of_eq (Entry.mark_analysis _ _ _ _) (Entry.mark_log _ _ _ _) ?_ ?_ ?_ ?_, rfl⟩
      · show (e'.mark _ ev ctx).state = e'.state
        unfold Entry.mark
        split <;> rfl
      · exact congrArg not (Entry.mark_backfilled _ _ _ _)
      · show (e'.mark _ ev ctx).progress.lastRefreshWall = e'.progress.lastRefreshWall
        unfold Entry.mark Progress.advanceBounded Progress.advance
        split
        · split <;> rfl
        · rfl
      · intro hnot
        rw [hnot] at hdone
        cases hdone

/-- A refresh that is due derives the state anew; one that is not has been before. -/
theorem Since.refreshEntry {archive : List ArchiveFile} {now : ℕ} (hs : Spot archive e)
    (h : Since ext e e') (hdue : ∀ d, e.analysis.refreshInterval = some d → d ≤ now) :
    Since ext e (Registry.refreshEntry now ext e') ∧ (e.needsBackfill = true →
      (Registry.refreshEntry now ext e').state = e.rederived ext) := by
  unfold Registry.refreshEntry
  rw [h.analysis]
  cases hinterval : e.analysis.refreshInterval with
  | none =>
    refine ⟨h, fun hpending => ?_⟩
    rcases h.derived hpending with ⟨hstate, -, -⟩ | hstate
    · rw [hstate, Entry.rederived, hinterval]
      rfl
    · exact hstate
  | some d =>
    dsimp only
    have hre : e.rederived ext = e.analysis.refresh ext e.state := by
      rw [Entry.rederived, hinterval]
      rfl
    split
    case isTrue =>
      have hstate : e.needsBackfill = true →
          e.analysis.refresh ext e'.state = e.rederived ext := by
        intro hpending
        rcases h.derived hpending with ⟨hstate, -, -⟩ | hstate
        · rw [hstate, hre]
        · rw [hstate, hre, hs.idem hpending]
      exact ⟨⟨rfl, h.log, h.gate, fun hpending => Or.inr (hstate hpending)⟩, hstate⟩
    case isFalse hnot =>
      refine ⟨h, fun hpending => ?_⟩
      rcases h.derived hpending with ⟨-, hwall, -⟩ | hstate
      · have hd := hdue d hinterval
        omega
      · exact hstate

/-- What the shortcut makes of an entry that was reset. -/
theorem Spot.refreshEntry {archive : List ArchiveFile} {now : ℕ} (hs : Spot archive e)
    (hpending : e.needsBackfill = true)
    (hdue : ∀ d, e.analysis.refreshInterval = some d → d ≤ now) :
    (Registry.refreshEntry now ext e.overdue).log = e.log ∧
      (Registry.refreshEntry now ext e.overdue).state = e.rederived ext := by
  have hover : Since ext e e.overdue :=
    (Since.refl hs.wall).of_eq rfl rfl rfl rfl (hs.wall hpending).symm fun _ => ⟨rfl, rfl⟩
  obtain ⟨hsince, hstate⟩ := hover.refreshEntry hs hdue
  exact ⟨hsince.log, hstate hpending⟩

theorem Since.iterate {archive : List ArchiveFile} {now : ℕ} (hs : Spot archive e)
    (h : Since ext e e') (hdue : ∀ d, e.analysis.refreshInterval = some d → d ≤ now) (k : ℕ) :
    Since ext e ((Registry.refreshEntry now ext)^[k] e') ∧ (0 < k → e.needsBackfill = true →
      ((Registry.refreshEntry now ext)^[k] e').state = e.rederived ext) := by
  induction k with
  | zero => exact ⟨h, fun hk => absurd hk (lt_irrefl 0)⟩
  | succ k ih =>
    rw [Function.iterate_succ_apply']
    obtain ⟨hsince, hstate⟩ := ih.1.refreshEntry hs hdue
    exact ⟨hsince, fun _ => hstate⟩

end since

/-! ## Of all entries -/

section registry

variable {σ ε : Type} {archive : List ArchiveFile} {r₀ r : Registry σ ε}

/-- Nothing was handed out since, and the store is as it was. -/
def SinceAll (r₀ r : Registry σ ε) : Prop :=
  r.ext = r₀.ext ∧ Registry.Pointwise (fun _ => Since r₀.ext) r₀ r

/-- A fold of an event of the archive. -/
theorem SinceAll.fold (hs : ∀ e ∈ r₀.entries, Spot archive e) (h : SinceAll r₀ r)
    {f : ArchiveFile} {ev : NostrEvent} (hf : f ∈ archive) (hev : ev ∈ f.events) (now : ℕ)
    (world : World) (indices : List ℕ) : SinceAll r₀ (r.fold ev now world .backfill indices) := by
  cases hkeys : Registry.keysOf ev with
  | none => rwa [r.fold_malformed (Registry.keysOf_none.mp hkeys)]
  | some k =>
    obtain ⟨author, id⟩ := k
    obtain ⟨hauthor, hid⟩ := Registry.keysOf_some.mp hkeys
    let ctx : AnalysisCtx := { now := now, author := author, eventId := id, world := world }
    -- one turn at a time
    have hturns : ∀ acc : Registry σ ε × Bool, SinceAll r₀ acc.1 →
        SinceAll r₀ (indices.foldl (Registry.foldAt .backfill ev ctx) acc).1 := by
      induction indices with
      | nil => exact fun acc hacc => hacc
      | cons i indices ih =>
        intro acc hacc
        refine ih _ ?_
        unfold Registry.foldAt
        cases hi : acc.1.entries[i]? with
        | none => exact hacc
        | some e' =>
          dsimp only
          cases hfold : e'.fold .backfill ev ctx acc.1.ext with
          | none => exact hacc
          | some x =>
            obtain ⟨e, he, hsince⟩ := hacc.2.back hi
            rw [hacc.1] at hfold
            obtain ⟨hsince', hext⟩ :=
              hsince.fold (hs e (List.mem_of_getElem? he)) hf hev hkeys hfold
            refine ⟨hext, (List.length_set ..).trans hacc.2.1, fun j e₀ e'' he₀ he'' => ?_⟩
            by_cases hij : i = j
            · subst hij
              dsimp only at he''
              rw [List.getElem?_set_self (List.getElem?_eq_some_iff.mp hi).1] at he''
              cases he''
              cases he.symm.trans he₀
              exact hsince'
            · dsimp only at he''
              rw [List.getElem?_set_ne hij] at he''
              exact hacc.2.2 j e₀ e'' he₀ he''
    have hall := hturns (r, false) h
    unfold Registry.fold
    simp only [hauthor, hid]
    split <;> exact hall

/-- The entries that a clock finds due. -/
def AllDue (r : Registry σ ε) (now : ℕ) : Prop :=
  ∀ e ∈ r.entries, ∀ d, e.analysis.refreshInterval = some d → d ≤ now

/-- Refreshes of the entries. -/
theorem SinceAll.refreshed (hs : ∀ e ∈ r₀.entries, Spot archive e) (h : SinceAll r₀ r) {now : ℕ}
    (hdue : AllDue r₀ now) {r' : Registry σ ε} (hext : r'.ext = r.ext)
    (hget : ∀ j : ℕ, ∃ k, r'.entries[j]? =
      r.entries[j]?.map (Registry.refreshEntry now r.ext)^[k]) : SinceAll r₀ r' := by
  have hnone : ∀ j : ℕ, r'.entries[j]? = none ↔ r.entries[j]? = none := by
    intro j
    obtain ⟨k, hk⟩ := hget j
    rw [hk, Option.map_eq_none_iff]
  have hlength : r'.entries.length = r.entries.length := by
    refine le_antisymm ?_ ?_
    · exact List.getElem?_eq_none_iff.mp ((hnone _).mpr (List.getElem?_eq_none_iff.mpr le_rfl))
    · exact List.getElem?_eq_none_iff.mp ((hnone _).mp (List.getElem?_eq_none_iff.mpr le_rfl))
  refine ⟨hext.trans h.1, hlength.trans h.2.1, fun j e e'' he he'' => ?_⟩
  obtain ⟨e', he', hsince⟩ := h.2.forth he
  obtain ⟨k, hk⟩ := hget j
  rw [hk, he', h.1] at he''
  cases he''
  exact (hsince.iterate (hs e (List.mem_of_getElem? he)) (hdue e (List.mem_of_getElem? he)) k).1

theorem SinceAll.materializeAll (hs : ∀ e ∈ r₀.entries, Spot archive e) (h : SinceAll r₀ r)
    {now : ℕ} (hdue : AllDue r₀ now) {world : World} {m : Registry σ ε × World}
    (hm : r.materializeAll now world = .ok m) : SinceAll r₀ m.1 := by
  obtain ⟨hext, hget⟩ := Registry.materializeAll_getElem hm
  exact h.refreshed hs hdue hext hget

/-- The end of a pass: its entries are refreshed, and then marked. -/
theorem SinceAll.advance (hs : ∀ e ∈ r₀.entries, Spot archive e) (h : SinceAll r₀ r)
    {now : ℕ} (hdue : AllDue r₀ now) (stage : List ℕ) (world : World) :
    SinceAll r₀ (((r.materializeStage stage now world).1.markBackfilled stage).clearRebuild
      stage) := by
  obtain ⟨hext, hget⟩ := r.materializeStage_getElem stage now world
  have hmat : SinceAll r₀ (r.materializeStage stage now world).1 :=
    h.refreshed hs hdue hext fun j => ⟨_, hget j⟩
  refine ⟨?_, ?_, fun j e e'' he he'' => ?_⟩
  · exact (Registry.ext_foldl_modify _ _ _).trans
      ((Registry.ext_foldl_modify _ _ _).trans hmat.1)
  · exact (Registry.length_foldl_modify _ _ _).trans
      ((Registry.length_foldl_modify _ _ _).trans hmat.2.1)
  · rw [Registry.clearRebuild_getElem, Registry.markBackfilled_getElem, hget] at he''
    obtain ⟨e', he', hsince⟩ := h.2.forth he
    have hspot := hs e (List.mem_of_getElem? he)
    obtain ⟨hiter, hstate⟩ := hsince.iterate hspot (hdue e (List.mem_of_getElem? he))
      (stage.count j)
    rw [he', h.1] at he''
    by_cases hj : j ∈ stage
    · rw [if_pos hj, if_pos hj] at he''
      cases he''
      have hderived := hstate (List.count_pos_iff.mpr hj)
      exact
        { analysis := hiter.analysis
          log := hiter.log
          gate := fun hdone => ⟨rfl, (hiter.gate hdone).2⟩
          derived := fun hpending => Or.inr (hderived hpending) }
    · rw [if_neg hj, if_neg hj] at he''
      cases he''
      exact hiter

theorem SinceAll.finishFile (h : SinceAll r₀ r) (stage : List ℕ) (file : String) :
    SinceAll r₀ (r.finishFile stage file) := by
  unfold Registry.finishFile
  induction stage generalizing r with
  | nil => exact h
  | cons i stage ih =>
    refine ih ⟨h.1, (List.length_modify ..).trans h.2.1, fun j e e'' he he'' => ?_⟩
    obtain ⟨e', he', hsince⟩ := h.2.forth he
    rw [Registry.modify_getElem, he'] at he''
    split at he''
    · cases he''
      unfold Entry.finishFile
      split
      · exact hsince.of_eq rfl rfl rfl rfl rfl fun _ => ⟨rfl, rfl⟩
      · exact hsince
    · cases he''
      exact hsince

end registry

/-! ## Of a node -/

section node

variable {σ ε : Type} {site : Site σ ε} {r₀ : Registry σ ε} {p : Pipeline σ ε} {n n' : Node σ ε}

theorem SinceAll.refreshInner (hs : ∀ e ∈ r₀.entries, Spot site.archive e)
    (h : SinceAll r₀ p.registry) (force : Bool) {clk : Clock} (hdue : AllDue r₀ clk.wall) :
    SinceAll r₀ (p.refreshInner force clk).registry := by
  unfold Pipeline.refreshInner
  split
  · exact h
  · dsimp only
    split
    · exact h
    case h_2 registry world hm =>
      have hall : SinceAll r₀ registry := h.materializeAll hs hdue hm
      split <;> exact hall

theorem SinceAll.foldOnly (hs : ∀ e ∈ r₀.entries, Spot site.archive e)
    (h : SinceAll r₀ p.registry) {f : ArchiveFile} {ev : NostrEvent} (hf : f ∈ site.archive)
    (hev : ev ∈ f.events) {clk : Clock} (hdue : AllDue r₀ clk.wall) :
    SinceAll r₀ (p.foldOnly ev clk).registry := by
  have hobserved : SinceAll r₀ (p.observeIntoStage ev clk.wall).registry := by
    unfold Pipeline.observeIntoStage
    split <;> exact h.fold hs hf hev _ _ _
  unfold Pipeline.foldOnly
  dsimp only
  split
  · unfold Pipeline.maybeRefreshWot
    split
    · exact hobserved
    · refine SinceAll.refreshInner hs ?_ false hdue
      exact hobserved
  · exact hobserved

theorem SinceAll.finishPassFiles (h : SinceAll r₀ p.registry) (files : List String) (clk : Clock) :
    SinceAll r₀ (p.finishPassFiles files clk).registry := by
  have hfiles : ∀ r : Registry σ ε, SinceAll r₀ r →
      SinceAll r₀ (files.foldl (fun r f => r.finishFile p.stage f) r) := by
    induction files with
    | nil => exact fun r hr => hr
    | cons f files ih => exact fun r hr => ih _ (hr.finishFile p.stage f)
  exact hfiles p.registry h

end node

/-! ## Pagerank -/

section pagerank

variable {ε : Type}

/-- What consumes the contact lists, as far as a replay goes. -/
private def followGraph : DynAnalysis Pagerank GraphStore :=
  { Pagerank.analysis id with
    name := "follow_graph", deps := [], refreshInterval := none, kinds := some [3]
    refresh := fun _ s => s }

end pagerank

end NostrSearch.Indexer
