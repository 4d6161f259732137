import NostrSearch.Stats.Folding

/-!
# What an analysis was handed

`Entry.handed` is the multiset of the events in an entry's log. Each operation of the registry
is described by what it does to it, entry by entry: `Entry.Moved added` says that the analysis
was handed `added` more and that its position in an archive rebuild is where it was, and
`Pointwise` says so of a whole registry. A fold hands its event to the entries that take it
(`fold_moved`); refreshing hands nothing to anyone (`materializeStage_moved`).

`Derived` ties the log to the state: an analysis that keeps everything in its state and computes
it from events alone is in the state its log leads to.
-/

namespace NostrSearch.Stats

open NostrSearch.Core

variable {σ ε : Type}

namespace DynAnalysis

/-- What the analysis is to be handed: the events it wants, if they have a well-formed key. -/
def folds (a : DynAnalysis σ ε) (ev : NostrEvent) : Bool :=
  a.wants ev && (Registry.keysOf ev).isSome

/-- What it is to be handed of a sequence of events. -/
def wanted (a : DynAnalysis σ ε) (evs : Multiset NostrEvent) : Multiset NostrEvent :=
  evs.filter fun ev => a.folds ev = true

/-- The state a log leads to. -/
def replay (a : DynAnalysis σ ε) (ext : ε) (log : List Handed) : σ :=
  log.foldl (fun s h => (a.observe h.ev h.ctx ext s).1) a.default

/-- Nothing but `observe` changes the state, and nothing but the event decides how. -/
structure SelfContained (a : DynAnalysis σ ε) : Prop where
  attach : ∀ ext s, a.attach ext s = s
  restored : ∀ s, a.restored s = s
  observe : ∀ ev ctx ext ext' s, (a.observe ev ctx ext s).1 = (a.observe ev ctx ext' s).1
  refresh : a.refreshInterval = none

@[simp] theorem wanted_zero (a : DynAnalysis σ ε) : a.wanted 0 = 0 := rfl

@[simp] theorem wanted_add (a : DynAnalysis σ ε) (s t : Multiset NostrEvent) :
    a.wanted (s + t) = a.wanted s + a.wanted t := Multiset.filter_add _ _ _

/-- Taking an event out takes it out of what is wanted, if it is. -/
theorem wanted_erase (a : DynAnalysis σ ε) {s : Multiset NostrEvent} {ev : NostrEvent}
    (h : ev ∈ s) :
    (if a.folds ev = true then {ev} else 0) + a.wanted (s.erase ev) = a.wanted s := by
  conv_rhs => rw [← Multiset.cons_erase h, wanted]
  rw [Multiset.filter_cons, wanted]

/-- An analysis that takes no kind wants nothing. -/
theorem wanted_of_kinds_nil {a : DynAnalysis σ ε} (h : a.kinds = some [])
    (s : Multiset NostrEvent) : a.wanted s = 0 := by
  apply Multiset.filter_eq_nil.mpr
  intro ev _
  rw [folds, wants, h]
  simp

end DynAnalysis

namespace Entry

/-- The events the state comes from. -/
def handed (e : Entry σ ε) : Multiset NostrEvent := Multiset.ofList (e.log.map Handed.ev)

/-- Whether a fold in this mode hands the event over. -/
def takes (e : Entry σ ε) (mode : FoldMode) (ev : NostrEvent) : Bool :=
  match Registry.keysOf ev with
  | some (_, id) => e.admits mode ev id && e.analysis.wants ev
  | none => false

def Derived (e : Entry σ ε) : Prop :=
  e.analysis.SelfContained → ∀ ext, e.state = e.analysis.replay ext e.log

/-- The entry was handed `added`, and nothing else happened to it that a rebuild depends on. -/
structure Moved (added : Multiset NostrEvent) (e e' : Entry σ ε) : Prop where
  analysis : e'.analysis = e.analysis
  backfilled : e'.progress.backfilled = e.progress.backfilled
  rebuild : e'.progress.rebuild = e.progress.rebuild
  handed : e'.handed = e.handed + added
  derived : e.Derived → e'.Derived

variable {e e' e'' : Entry σ ε} {s t : Multiset NostrEvent}

theorem Moved.refl (e : Entry σ ε) : Moved 0 e e :=
  ⟨rfl, rfl, rfl, (add_zero _).symm, id⟩

theorem Moved.trans (h : Moved s e e') (h' : Moved t e' e'') : Moved (s + t) e e'' := by
  refine ⟨h'.analysis.trans h.analysis, h'.backfilled.trans h.backfilled,
    h'.rebuild.trans h.rebuild, ?_, fun hd => h'.derived (h.derived hd)⟩
  rw [h'.handed, h.handed, add_assoc]

theorem Moved.needsBackfill (h : Moved s e e') : e'.needsBackfill = e.needsBackfill := by
  rw [Entry.needsBackfill, Entry.needsBackfill, h.backfilled]

theorem Moved.name (h : Moved s e e') : e'.name = e.name := by
  rw [Entry.name, Entry.name, h.analysis]

/-- An analysis still to be derived takes whatever it wants from a backfill. -/
theorem takes_of_needsBackfill (h : e.needsBackfill = true) (ev : NostrEvent) :
    e.takes .backfill ev = e.analysis.folds ev := by
  have hadm : ∀ id, e.admits .backfill ev id = true := by
    intro id
    simp [admits, ordered, h]
  rw [takes, DynAnalysis.folds]
  cases hkeys : Registry.keysOf ev with
  | none => simp
  | some k => simp [hadm]

/-- What is taken is wanted. -/
theorem folds_of_takes {mode : FoldMode} {ev : NostrEvent} (h : e.takes mode ev = true) :
    e.analysis.folds ev = true := by
  rw [takes] at h
  split at h
  case h_1 author id hkeys =>
    rw [Bool.and_eq_true] at h
    rw [DynAnalysis.folds, h.2, hkeys]
    rfl
  case h_2 => cases h

/-- A turn of the fold. -/
theorem foldOr_moved (e : Entry σ ε) (mode : FoldMode) (ev : NostrEvent) (ctx : AnalysisCtx)
    (ext : ε) :
    Moved (if (e.admits mode ev ctx.eventId && e.analysis.wants ev) = true then {ev} else 0) e
      (e.foldOr mode ev ctx ext) := by
  cases hf : e.fold mode ev ctx ext with
  | none =>
    have hadm : e.admits mode ev ctx.eventId = false := by
      rw [← Bool.not_eq_true]
      intro h
      have hsome : (e.fold mode ev ctx ext).isSome := fold_isSome.mpr h
      rw [hf] at hsome
      cases hsome
    rw [foldOr, hf, Option.elim_none, hadm]
    exact Moved.refl e
  | some p =>
    obtain ⟨e', ext'⟩ := p
    have hfolded := folded_of_fold hf
    rw [foldOr, hf, Option.elim_some, hfolded.admits, Bool.true_and]
    refine ⟨hfolded.analysis, hfolded.backfilled, hfolded.rebuild, ?_, ?_⟩
    · rw [Entry.handed, hfolded.log]
      split
      · rw [List.map_append, ← Multiset.coe_add]
        rfl
      · rw [add_zero]
        rfl
    · intro hd hself ext₀
      rw [hfolded.analysis] at hself ⊢
      have hstate := hd hself
      have hlog := hfolded.log
      -- the state the fold leaves
      unfold Entry.fold at hf
      rw [if_pos hfolded.admits, Option.some.injEq, Prod.mk.injEq] at hf
      have hmark : ∀ (e : Entry σ ε) o, (e.mark o ev ctx).state = e.state := by
        intro e o
        unfold mark
        split <;> rfl
      -- the state is that of one replayed event more, or as it was
      by_cases hw : e.analysis.wants ev
      · rw [if_pos hw] at hf hlog
        have hafter : e'.state = (e.analysis.observe ev ctx ext e.state).1 := by
          rw [← hf.1, hmark]
          rfl
        show e'.state = e.analysis.replay ext₀ e'.log
        rw [hlog, DynAnalysis.replay, List.foldl_append, ← DynAnalysis.replay, ← hstate ext₀,
          hafter]
        exact hself.observe ev ctx ext ext₀ e.state
      · rw [if_neg hw] at hf hlog
        have hafter : e'.state = e.state := by rw [← hf.1, hmark]
        show e'.state = e.analysis.replay ext₀ e'.log
        rw [hlog, hafter]
        exact hstate ext₀

/-- A refresh hands nothing over. -/
theorem refreshEntry_moved (e : Entry σ ε) (nowWall : ℕ) (ext : ε) :
    Moved 0 e (Registry.refreshEntry nowWall ext e) := by
  unfold Registry.refreshEntry
  split
  · exact Moved.refl e
  case h_2 d hd =>
    split
    · refine ⟨rfl, rfl, rfl, (add_zero _).symm, ?_⟩
      intro _ hself
      have hnone : e.analysis.refreshInterval = none := hself.refresh
      rw [hnone] at hd
      cases hd
    · exact Moved.refl e

end Entry

namespace Registry

/-- The registries have the same entries in the same places, and `R` holds of each before and
after. -/
def Pointwise (R : ℕ → Entry σ ε → Entry σ ε → Prop) (r r' : Registry σ ε) : Prop :=
  r'.entries.length = r.entries.length ∧
    ∀ i e e', r.entries[i]? = some e → r'.entries[i]? = some e' → R i e e'

variable {R S T : ℕ → Entry σ ε → Entry σ ε → Prop} {r r' r'' : Registry σ ε}

theorem Pointwise.back (h : Pointwise R r r') {i : ℕ} {e' : Entry σ ε}
    (he' : r'.entries[i]? = some e') : ∃ e, r.entries[i]? = some e ∧ R i e e' := by
  have hi : i < r.entries.length := by
    rw [← h.1]
    exact (List.getElem?_eq_some_iff.mp he').1
  have he : r.entries[i]? = some r.entries[i] := List.getElem?_eq_getElem hi
  exact ⟨_, he, h.2 i _ e' he he'⟩

theorem Pointwise.exists_of_mem (h : Pointwise R r r') {e' : Entry σ ε} (he' : e' ∈ r'.entries) :
    ∃ i e, r.entries[i]? = some e ∧ r'.entries[i]? = some e' ∧ R i e e' := by
  obtain ⟨i, hi⟩ := List.mem_iff_getElem?.mp he'
  obtain ⟨e, he, hm⟩ := h.back hi
  exact ⟨i, e, he, hi, hm⟩

theorem Pointwise.forth (h : Pointwise R r r') {i : ℕ} {e : Entry σ ε}
    (he : r.entries[i]? = some e) : ∃ e', r'.entries[i]? = some e' ∧ R i e e' := by
  have hi : i < r'.entries.length := by
    rw [h.1]
    exact (List.getElem?_eq_some_iff.mp he).1
  have he' : r'.entries[i]? = some r'.entries[i] := List.getElem?_eq_getElem hi
  exact ⟨_, he', h.2 i e _ he he'⟩

theorem Pointwise.mono (h : Pointwise R r r') (hRS : ∀ i e e', R i e e' → S i e e') :
    Pointwise S r r' :=
  ⟨h.1, fun i e e' he he' => hRS i e e' (h.2 i e e' he he')⟩

theorem Pointwise.trans (h : Pointwise R r r') (h' : Pointwise S r' r'')
    (hT : ∀ i e e' e'', R i e e' → S i e' e'' → T i e e'') : Pointwise T r r'' := by
  refine ⟨h'.1.trans h.1, ?_⟩
  intro i e e'' he he''
  obtain ⟨e', he', hR⟩ := h.forth he
  exact hT i e e' e'' hR (h'.2 i e' e'' he' he'')

theorem pointwise_refl (hR : ∀ i e, R i e e) (r : Registry σ ε) : Pointwise R r r := by
  refine ⟨rfl, ?_⟩
  intro i e e' he he'
  rw [he, Option.some.injEq] at he'
  subst he'
  exact hR i e

/-- Nothing was handed to anyone. -/
abbrev Still (r r' : Registry σ ε) : Prop := Pointwise (fun _ => Entry.Moved 0) r r'

theorem Still.trans (h : Still r r') (h' : Still r' r'') : Still r r'' :=
  Pointwise.trans h h' fun _ _ _ _ hR hS => by simpa using hR.trans hS

theorem still_refl (r : Registry σ ε) : Still r r := pointwise_refl (fun _ e => Entry.Moved.refl e) r

/-- A fold hands its event to the entries it names that take it. -/
theorem fold_moved (r : Registry σ ε) (ev : NostrEvent) (now : ℕ) (world : World)
    (mode : FoldMode) {indices : List ℕ} (hnodup : indices.Nodup) :
    Pointwise (fun i e => Entry.Moved (if i ∈ indices ∧ e.takes mode ev = true then {ev} else 0) e)
      r (r.fold ev now world mode indices) := by
  cases hkeys : keysOf ev with
  | none =>
    -- an event whose keys do not parse goes to nobody
    rw [r.fold_malformed (keysOf_none.mp hkeys)]
    apply pointwise_refl
    intro i e
    have htakes : e.takes mode ev = false := by rw [Entry.takes, hkeys]
    rw [htakes, if_neg (by simp)]
    exact Entry.Moved.refl e
  | some k =>
    obtain ⟨author, id⟩ := k
    obtain ⟨hauthor, hid⟩ := keysOf_some.mp hkeys
    have hentries := r.fold_entries hauthor hid now world mode indices
    let ctx : AnalysisCtx := { now := now, author := author, eventId := id, world := world }
    -- an entry that is named once has one turn
    have hget : ∀ i, ∃ ext, (indices.foldl (foldAt mode ev ctx) (r, false)).1.entries[i]? =
        if i ∈ indices then r.entries[i]?.map fun e => e.foldOr mode ev ctx ext
        else r.entries[i]? := fun i => foldl_getElem hnodup (r, false) i
    have hlength : (r.fold ev now world mode indices).entries.length = r.entries.length := by
      rw [hentries]
      exact foldl_length _ _
    refine ⟨hlength, ?_⟩
    intro i e e' he he'
    obtain ⟨ext, hi⟩ := hget i
    rw [hentries, hi, he] at he'
    by_cases hmem : i ∈ indices
    · rw [if_pos hmem, Option.map_some, Option.some.injEq] at he'
      subst he'
      have htakes : e.takes mode ev = (e.admits mode ev id && e.analysis.wants ev) := by
        rw [Entry.takes, hkeys]
      simp only [hmem, true_and, htakes]
      exact e.foldOr_moved mode ev ctx ext
    · rw [if_neg hmem, Option.some.injEq] at he'
      subst he'
      rw [if_neg (by simp [hmem])]
      exact Entry.Moved.refl e

theorem modify_still (r : Registry σ ε) (i : ℕ) {f : Entry σ ε → Entry σ ε}
    (hf : ∀ e, Entry.Moved 0 e (f e)) : Still r (r.modify i f) := by
  refine ⟨List.length_modify .., ?_⟩
  intro j e e' he he'
  rw [modify_getElem, he] at he'
  split at he'
  · rw [Option.map_some, Option.some.injEq] at he'
    subst he'
    exact hf e
  · rw [Option.some.injEq] at he'
    subst he'
    exact Entry.Moved.refl e

theorem materializeStage_still (r : Registry σ ε) (stage : List ℕ) (nowWall : ℕ)
    (world : World) : Still r (r.materializeStage stage nowWall world).1 := by
  unfold materializeStage
  induction stage generalizing r world with
  | nil => exact still_refl r
  | cons i is ih =>
    rw [List.foldl_cons]
    have hi : Still r (r.modify i (refreshEntry nowWall r.ext)) :=
      r.modify_still i fun e => e.refreshEntry_moved nowWall r.ext
    exact hi.trans (ih _ _)

theorem materializeAll_still {r : Registry σ ε} {nowWall : ℕ} {world : World}
    {rw : Registry σ ε × World} (h : r.materializeAll nowWall world = .ok rw) :
    Still r rw.1 := by
  unfold materializeAll at h
  split at h
  · cases h
  case h_2 stages hstages =>
    rw [Except.ok.injEq] at h
    subst h
    have hloop : ∀ (sts : List (List ℕ)) (acc : Registry σ ε × World),
        Still acc.1 (sts.foldl (fun acc stage => acc.1.materializeStage stage nowWall acc.2)
          acc).1 := by
      intro sts
      induction sts with
      | nil => exact fun acc => still_refl acc.1
      | cons st sts ih =>
        intro acc
        rw [List.foldl_cons]
        exact (materializeStage_still acc.1 st nowWall acc.2).trans (ih _)
    exact hloop stages (r, world)

end Registry

end NostrSearch.Stats
