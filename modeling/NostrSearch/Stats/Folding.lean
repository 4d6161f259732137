import NostrSearch.Stats.Registry

/-!
# What a fold does

`Entry.Folded` says what one turn of the fold does to everything but the analysis's own state:
the gate was open, the call is logged if the analysis wants the event, and the progress moves by
the rule of the mode. `fold_forall` carries a property of entries through a whole
`Registry.fold`, given what is so of the entries it goes through; `fold_establishes` is for what
a fold brings about in one entry; `fold_origin` and `foldl_getElem` say what becomes of each
entry when no index comes twice.
-/

namespace NostrSearch.Stats

open NostrSearch.Core

variable {σ ε : Type}

/-- One turn of the fold, the analysis's own state aside. -/
structure Entry.Folded (mode : FoldMode) (ev : NostrEvent) (ctx : AnalysisCtx)
    (e e' : Entry σ ε) : Prop where
  admits : e.admits mode ev ctx.eventId = true
  analysis : e'.analysis = e.analysis
  backfilled : e'.progress.backfilled = e.progress.backfilled
  rebuild : e'.progress.rebuild = e.progress.rebuild
  log : e'.log = if e.analysis.wants ev then e.log ++ [{ ev := ev, ctx := ctx }] else e.log
  watermark : e'.progress.watermark =
    if e.ordered mode then
      (e.progress.advanceBounded ev.createdAt ctx.eventId
        (satAdd ctx.now futureSkewSecs)).watermark
    else max e.progress.watermark ev.createdAt
  boundary : e'.progress.boundary =
    if e.ordered mode then
      (e.progress.advanceBounded ev.createdAt ctx.eventId
        (satAdd ctx.now futureSkewSecs)).boundary
    else e.progress.boundary

namespace Entry

theorem mark_analysis (e : Entry σ ε) (ordered : Bool) (ev : NostrEvent) (ctx : AnalysisCtx) :
    (e.mark ordered ev ctx).analysis = e.analysis := by
  unfold mark
  split <;> rfl

theorem mark_log (e : Entry σ ε) (ordered : Bool) (ev : NostrEvent) (ctx : AnalysisCtx) :
    (e.mark ordered ev ctx).log = e.log := by
  unfold mark
  split <;> rfl

theorem mark_backfilled (e : Entry σ ε) (ordered : Bool) (ev : NostrEvent) (ctx : AnalysisCtx) :
    (e.mark ordered ev ctx).progress.backfilled = e.progress.backfilled := by
  unfold mark
  split
  · exact Progress.backfilled_advanceBounded _ _ _ _
  · rfl

theorem mark_rebuild (e : Entry σ ε) (ordered : Bool) (ev : NostrEvent) (ctx : AnalysisCtx) :
    (e.mark ordered ev ctx).progress.rebuild = e.progress.rebuild := by
  unfold mark
  split
  · exact Progress.rebuild_advanceBounded _ _ _ _
  · rfl

/-- Counters have no part in the watermark. -/
theorem advanceBounded_congr {p q : Progress} (hw : p.watermark = q.watermark)
    (hb : p.boundary = q.boundary) (createdAt : ℕ) (id : EventId) (maxTs : ℕ) :
    (p.advanceBounded createdAt id maxTs).watermark =
        (q.advanceBounded createdAt id maxTs).watermark ∧
      (p.advanceBounded createdAt id maxTs).boundary =
        (q.advanceBounded createdAt id maxTs).boundary := by
  unfold Progress.advanceBounded
  split
  · exact ⟨hw, hb⟩
  · simp only [Progress.advance, hw, hb, and_self]

theorem fold_isSome {e : Entry σ ε} {mode : FoldMode} {ev : NostrEvent} {ctx : AnalysisCtx}
    {ext : ε} : (e.fold mode ev ctx ext).isSome ↔ e.admits mode ev ctx.eventId = true := by
  unfold fold
  split <;> simp_all

theorem folded_of_fold {e e' : Entry σ ε} {mode : FoldMode} {ev : NostrEvent}
    {ctx : AnalysisCtx} {ext ext' : ε} (h : e.fold mode ev ctx ext = some (e', ext')) :
    Folded mode ev ctx e e' := by
  unfold fold at h
  split at h
  case isFalse => cases h
  case isTrue hadm =>
    rw [Option.some.injEq, Prod.mk.injEq] at h
    obtain ⟨rfl, -⟩ := h
    by_cases hw : e.analysis.wants ev
    · rw [if_pos hw]
      -- handing the event over changes the state, the counters and the log
      have hmark : ∀ ordered, ((e.hand ext ev ctx).1.mark ordered ev ctx).progress.watermark =
            (e.mark ordered ev ctx).progress.watermark ∧
          ((e.hand ext ev ctx).1.mark ordered ev ctx).progress.boundary =
            (e.mark ordered ev ctx).progress.boundary := by
        intro ordered
        cases ordered with
        | true =>
          have hw : (e.hand ext ev ctx).1.progress.watermark = e.progress.watermark := rfl
          have hb : (e.hand ext ev ctx).1.progress.boundary = e.progress.boundary := rfl
          rw [mark, if_pos rfl, mark, if_pos rfl]
          exact advanceBounded_congr hw hb _ _ _
        | false => exact ⟨rfl, rfl⟩
      refine ⟨hadm, mark_analysis _ _ _ _, mark_backfilled _ _ _ _, mark_rebuild _ _ _ _, ?_, ?_, ?_⟩
      · rw [mark_log, if_pos hw]
        rfl
      · rw [(hmark _).1, mark]
        split <;> rfl
      · rw [(hmark _).2, mark]
        split <;> rfl
    · rw [if_neg hw]
      refine ⟨hadm, mark_analysis _ _ _ _, mark_backfilled _ _ _ _, mark_rebuild _ _ _ _, ?_, ?_, ?_⟩
      · rw [mark_log, if_neg hw]
      · rw [mark]
        split <;> rfl
      · rw [mark]
        split <;> rfl

/-- The entry after a turn at it, whether or not the gate was open. -/
def foldOr (e : Entry σ ε) (mode : FoldMode) (ev : NostrEvent) (ctx : AnalysisCtx) (ext : ε) :
    Entry σ ε :=
  (e.fold mode ev ctx ext).elim e Prod.fst

end Entry

namespace Registry

variable {mode : FoldMode} {ev : NostrEvent} {ctx : AnalysisCtx}

theorem foldAt_self (acc : Registry σ ε × Bool) (i : ℕ) :
    (foldAt mode ev ctx acc i).1.entries[i]? =
      acc.1.entries[i]?.map fun e => e.foldOr mode ev ctx acc.1.ext := by
  unfold foldAt
  cases hi : acc.1.entries[i]? with
  | none => exact hi
  | some e =>
    have hlt : i < acc.1.entries.length := (List.getElem?_eq_some_iff.mp hi).1
    rw [Option.map_some, Entry.foldOr]
    cases hf : e.fold mode ev ctx acc.1.ext with
    | none => simp only [hf, hi, Option.elim_none]
    | some p => simp only [hf, List.getElem?_set_self hlt, Option.elim_some]

theorem foldAt_of_ne (acc : Registry σ ε × Bool) {i j : ℕ} (h : i ≠ j) :
    (foldAt mode ev ctx acc i).1.entries[j]? = acc.1.entries[j]? := by
  unfold foldAt
  split
  · rfl
  · split
    · rfl
    · exact List.getElem?_set_ne h

theorem foldAt_length (acc : Registry σ ε × Bool) (i : ℕ) :
    (foldAt mode ev ctx acc i).1.entries.length = acc.1.entries.length := by
  unfold foldAt
  split
  · rfl
  · split
    · rfl
    · exact List.length_set

theorem foldl_length (indices : List ℕ) (acc : Registry σ ε × Bool) :
    (indices.foldl (foldAt mode ev ctx) acc).1.entries.length = acc.1.entries.length := by
  induction indices generalizing acc with
  | nil => rfl
  | cons i is ih => rw [List.foldl_cons, ih, foldAt_length]

/-- When no index comes twice, the loop takes one turn at each entry it names, and leaves the
others alone. -/
theorem foldl_getElem {indices : List ℕ} (hnodup : indices.Nodup) (acc : Registry σ ε × Bool)
    (j : ℕ) :
    ∃ ext, (indices.foldl (foldAt mode ev ctx) acc).1.entries[j]? =
      if j ∈ indices then acc.1.entries[j]?.map fun e => e.foldOr mode ev ctx ext
      else acc.1.entries[j]? := by
  induction indices generalizing acc with
  | nil => exact ⟨acc.1.ext, rfl⟩
  | cons i is ih =>
    rw [List.nodup_cons] at hnodup
    obtain ⟨ext, hext⟩ := ih hnodup.2 (foldAt mode ev ctx acc i)
    rw [List.foldl_cons, hext]
    by_cases hij : i = j
    · subst hij
      refine ⟨acc.1.ext, ?_⟩
      rw [if_neg hnodup.1, if_pos List.mem_cons_self, foldAt_self]
    · refine ⟨ext, ?_⟩
      have hmem : j ∈ i :: is ↔ j ∈ is := by
        rw [List.mem_cons, or_iff_right (Ne.symm hij)]
      simp only [hmem, foldAt_of_ne acc hij]

/-- What a turn brings about in entry `i`, and any turn keeps, is so of it after the loop. -/
theorem foldl_establishes {P Q : Entry σ ε → Prop} {i : ℕ}
    (hQ : ∀ e ext, P e → Q (e.foldOr mode ev ctx ext))
    (hkeep : ∀ e ext, Q e → Q (e.foldOr mode ev ctx ext)) {indices : List ℕ} (hi : i ∈ indices)
    (acc : Registry σ ε × Bool) {e : Entry σ ε} (he : acc.1.entries[i]? = some e) (hPe : P e) :
    ∃ e', (indices.foldl (foldAt mode ev ctx) acc).1.entries[i]? = some e' ∧ Q e' := by
  have hrest : ∀ (is : List ℕ) (acc : Registry σ ε × Bool) (e : Entry σ ε),
      acc.1.entries[i]? = some e → Q e →
        ∃ e', (is.foldl (foldAt mode ev ctx) acc).1.entries[i]? = some e' ∧ Q e' := by
    intro is
    induction is with
    | nil => exact fun acc e he hQe => ⟨e, he, hQe⟩
    | cons j js ih =>
      intro acc e he hQe
      rw [List.foldl_cons]
      by_cases hji : j = i
      · subst hji
        exact ih _ _ (by rw [foldAt_self, he, Option.map_some]) (hkeep e _ hQe)
      · exact ih _ e (by rw [foldAt_of_ne acc hji, he]) hQe
  induction indices generalizing acc with
  | nil => exact absurd hi List.not_mem_nil
  | cons j js ih =>
    rw [List.foldl_cons]
    by_cases hji : j = i
    · subst hji
      exact hrest js _ _ (by rw [foldAt_self, he, Option.map_some]) (hQ e _ hPe)
    · have hi' : i ∈ js := (List.mem_cons.mp hi).resolve_left (Ne.symm hji)
      exact ih hi' _ (by rw [foldAt_of_ne acc hji, he])

/-- A whole fold is its loop, for an event with a well-formed key. -/
theorem fold_entries (r : Registry σ ε) {ev : NostrEvent} {author : Pubkey} {id : EventId}
    (hauthor : Hash32.fromHex ev.pubkey = some author) (hid : Hash32.fromHex ev.id = some id)
    (now : ℕ) (world : World) (mode : FoldMode) (indices : List ℕ) :
    (r.fold ev now world mode indices).entries =
      (indices.foldl
        (foldAt mode ev { now := now, author := author, eventId := id, world := world })
        (r, false)).1.entries := by
  unfold fold
  simp only [hauthor, hid]
  split <;> rfl

theorem fold_malformed (r : Registry σ ε) {ev : NostrEvent}
    (h : Hash32.fromHex ev.pubkey = none ∨ Hash32.fromHex ev.id = none) (now : ℕ)
    (world : World) (mode : FoldMode) (indices : List ℕ) :
    r.fold ev now world mode indices = r := by
  unfold fold
  split
  · rename_i hauthor hid
    rcases h with h | h
    · rw [h] at hauthor
      cases hauthor
    · rw [h] at hid
      cases hid
  · rfl

/-- The keys an event is folded under. -/
def keysOf (ev : NostrEvent) : Option (Pubkey × EventId) :=
  match Hash32.fromHex ev.pubkey, Hash32.fromHex ev.id with
  | some author, some id => some (author, id)
  | _, _ => none

theorem keysOf_some {ev : NostrEvent} {author : Pubkey} {id : EventId} :
    keysOf ev = some (author, id) ↔
      Hash32.fromHex ev.pubkey = some author ∧ Hash32.fromHex ev.id = some id := by
  unfold keysOf
  split <;> simp_all

theorem keysOf_none {ev : NostrEvent} :
    keysOf ev = none ↔ Hash32.fromHex ev.pubkey = none ∨ Hash32.fromHex ev.id = none := by
  unfold keysOf
  cases hauthor : Hash32.fromHex ev.pubkey <;> cases hid : Hash32.fromHex ev.id <;> simp

/-- When no index comes twice, every entry after a fold is an entry from before it, or one turn
away from it. -/
theorem fold_origin {r : Registry σ ε} {now : ℕ} {world : World} {indices : List ℕ}
    (hnodup : indices.Nodup) {e' : Entry σ ε}
    (he' : e' ∈ (r.fold ev now world mode indices).entries) :
    ∃ e ∈ r.entries, e' = e ∨ ∃ author id, keysOf ev = some (author, id) ∧
      Entry.Folded mode ev { now := now, author := author, eventId := id, world := world } e e' := by
  cases hkeys : keysOf ev with
  | none =>
    rw [r.fold_malformed (keysOf_none.mp hkeys)] at he'
    exact ⟨e', he', Or.inl rfl⟩
  | some k =>
    obtain ⟨author, id⟩ := k
    obtain ⟨hauthor, hid⟩ := keysOf_some.mp hkeys
    rw [r.fold_entries hauthor hid] at he'
    obtain ⟨j, hj⟩ := List.mem_iff_getElem?.mp he'
    obtain ⟨ext, hext⟩ := foldl_getElem hnodup (r, false) j
    rw [hext] at hj
    split at hj
    · obtain ⟨e, he, rfl⟩ := Option.map_eq_some_iff.mp hj
      refine ⟨e, List.mem_of_getElem? he, ?_⟩
      rw [Entry.foldOr]
      cases hf : e.fold mode ev { now := now, author := author, eventId := id, world := world } ext
        with
      | none => exact Or.inl rfl
      | some p => exact Or.inr ⟨author, id, rfl, Entry.folded_of_fold hf⟩
    · exact ⟨e', List.mem_of_getElem? hj, Or.inl rfl⟩

/-- What a fold brings about in an entry it names, whatever comes after it in the loop. -/
theorem fold_establishes {P Q : Entry σ ε → Prop} {r : Registry σ ε} {now : ℕ} {world : World}
    {indices : List ℕ} {author : Pubkey} {id : EventId} (hkeys : keysOf ev = some (author, id))
    (hQ : ∀ e ext, P e → Q (e.foldOr mode ev
      { now := now, author := author, eventId := id, world := world } ext))
    (hkeep : ∀ e ext, Q e → Q (e.foldOr mode ev
      { now := now, author := author, eventId := id, world := world } ext))
    {i : ℕ} (hi : i ∈ indices) {e : Entry σ ε} (he : r.entries[i]? = some e) (hPe : P e) :
    ∃ e' ∈ (r.fold ev now world mode indices).entries, Q e' := by
  obtain ⟨hauthor, hid⟩ := keysOf_some.mp hkeys
  rw [r.fold_entries hauthor hid]
  obtain ⟨e', he', hQe'⟩ := foldl_establishes hQ hkeep hi (r, false) he hPe
  exact ⟨e', List.mem_of_getElem? he', hQe'⟩

theorem nodup_all (r : Registry σ ε) : r.all.Nodup := List.nodup_range

theorem mem_all {r : Registry σ ε} {i : ℕ} {e : Entry σ ε} (h : r.entries[i]? = some e) :
    i ∈ r.all :=
  List.mem_range.mpr (List.getElem?_eq_some_iff.mp h).1

/-! ## Changing entries in place -/

theorem modify_getElem (r : Registry σ ε) (i j : ℕ) (f : Entry σ ε → Entry σ ε) :
    (r.modify i f).entries[j]? = if i = j then r.entries[j]?.map f else r.entries[j]? := by
  rw [modify, List.getElem?_modify]
  split
  · rfl
  · exact Option.map_id_apply

/-- An idempotent change of the entries of a stage. -/
theorem foldl_modify_getElem {f : Entry σ ε → Entry σ ε} (hf : ∀ e, f (f e) = f e)
    (stage : List ℕ) (r : Registry σ ε) (j : ℕ) :
    (stage.foldl (fun r i => r.modify i f) r).entries[j]? =
      if j ∈ stage then r.entries[j]?.map f else r.entries[j]? := by
  induction stage generalizing r with
  | nil => rfl
  | cons i is ih =>
    rw [List.foldl_cons, ih, modify_getElem]
    by_cases hij : i = j
    · subst hij
      simp only [if_pos, List.mem_cons_self, Option.map_map, Function.comp_def, hf, ite_self]
    · have hmem : j ∈ i :: is ↔ j ∈ is := by
        rw [List.mem_cons, or_iff_right (Ne.symm hij)]
      simp only [if_neg hij, hmem]

theorem length_foldl_modify (f : Entry σ ε → Entry σ ε) (stage : List ℕ) (r : Registry σ ε) :
    (stage.foldl (fun r i => r.modify i f) r).entries.length = r.entries.length := by
  induction stage generalizing r with
  | nil => rfl
  | cons i is ih =>
    rw [List.foldl_cons, ih]
    exact List.length_modify ..

theorem markBackfilled_getElem (r : Registry σ ε) (stage : List ℕ) (j : ℕ) :
    (r.markBackfilled stage).entries[j]? =
      if j ∈ stage then r.entries[j]?.map Entry.markBackfilled else r.entries[j]? := by
  apply foldl_modify_getElem
  intro e
  rfl

theorem clearRebuild_getElem (r : Registry σ ε) (stage : List ℕ) (j : ℕ) :
    (r.clearRebuild stage).entries[j]? =
      if j ∈ stage then r.entries[j]?.map Entry.clearRebuild else r.entries[j]? := by
  apply foldl_modify_getElem
  intro e
  rfl

end Registry

end NostrSearch.Stats
