import NostrSearch.Stats.Accounting

/-!
# What is saved and restored

`Entry.Bounded all` is what a rebuild keeps of an analysis: its state is the one its log leads to,
and while it is still to be derived it was handed no more than `all` has for it. `persist` saves
an entry with it (`persist_get`, `Bounded.saved`), and `load` brings it back (`bounded_load`); an
entry that starts afresh has it as well.
-/

namespace NostrSearch.Stats

open NostrSearch.Core

variable {σ ε : Type} {all : Multiset NostrEvent}

namespace Entry

structure Bounded (all : Multiset NostrEvent) (e : Entry σ ε) : Prop where
  derived : e.Derived
  le : e.needsBackfill = true → e.handed ≤ e.analysis.wanted all

end Entry

/-- The same of a checkpoint of the analysis `a`. -/
structure Saved.Bounded (all : Multiset NostrEvent) (a : DynAnalysis σ ε) (sv : Saved σ) : Prop where
  derived : a.SelfContained → ∀ s, sv.state = some s → ∀ ext, s = a.replay ext sv.log
  le : sv.progress.backfilled = false → Multiset.ofList (sv.log.map Handed.ev) ≤ a.wanted all

namespace Entry

theorem Bounded.saved {e : Entry σ ε} (h : e.Bounded all) : e.saved.Bounded all e.analysis := by
  constructor
  · intro hself s hs ext
    have hstate : e.analysis.restored e.state = s := Option.some.inj hs
    rw [← hstate, hself.restored]
    exact h.derived hself ext
  · intro hpend
    apply h.le
    have hback : e.progress.backfilled = false := hpend
    rw [needsBackfill, hback, Bool.not_false]

/-- An entry with an empty log, in the state of a new instance. -/
theorem bounded_of_log_nil {e : Entry σ ε} (hstate : e.state = e.analysis.default)
    (hlog : e.log = []) : e.Bounded all := by
  constructor
  · intro _ ext
    rw [hlog, hstate]
    rfl
  · intro _
    rw [handed, hlog]
    exact Multiset.zero_le _

theorem bounded_new (a : DynAnalysis σ ε) : (Entry.new a).Bounded all :=
  bounded_of_log_nil rfl rfl

theorem bounded_load {a : DynAnalysis σ ε} (now : ℕ) {s : Option (Saved σ)}
    (hs : ∀ sv, s = some sv → sv.Bounded all a) : ((Entry.new a).load now s).Bounded all := by
  unfold load
  split
  case h_1 sv =>
    have hsv := hs sv rfl
    split
    · split
      case h_1 st hst =>
        have hback : (sv.progress.clampWatermark (satAdd now futureSkewSecs)).backfilled =
            sv.progress.backfilled := by
          unfold Progress.clampWatermark
          split <;> rfl
        refine ⟨fun hself ext => hsv.derived hself st hst ext, ?_⟩
        intro hpend
        rw [needsBackfill, hback, Bool.not_eq_true'] at hpend
        exact hsv.le hpend
      case h_2 => exact bounded_of_log_nil rfl rfl
    · exact bounded_of_log_nil rfl rfl
  case h_2 => exact bounded_of_log_nil rfl rfl

theorem analysis_load (e : Entry σ ε) (now : ℕ) (s : Option (Saved σ)) :
    (e.load now s).analysis = e.analysis := by
  unfold load
  split
  · split
    · split <;> rfl
    · rfl
  · rfl

/-- Handing the external store to an analysis. -/
theorem Bounded.attach {e : Entry σ ε} (h : e.Bounded all) (ext : ε) :
    ({ e with state := e.analysis.attach ext e.state } : Entry σ ε).Bounded all := by
  refine ⟨?_, h.le⟩
  intro hself ext'
  show e.analysis.attach ext e.state = _
  rw [DynAnalysis.SelfContained.attach hself]
  exact h.derived hself ext'

theorem Moved.bounded {e e' : Entry σ ε} {s : Multiset NostrEvent} (hm : Moved s e e')
    (h : e.Bounded all) (hle : e.needsBackfill = true → e.handed + s ≤ e.analysis.wanted all) :
    e'.Bounded all := by
  refine ⟨hm.derived h.derived, ?_⟩
  intro hpend
  rw [hm.needsBackfill] at hpend
  rw [hm.handed, hm.analysis]
  exact hle hpend

end Entry

namespace Registry

/-- What is saved under a name none of the entries has. -/
theorem foldl_update_of_notMem {name : String} {xs : List (Entry σ ε)}
    (h : name ∉ xs.map Entry.name) (store : StatStore σ) :
    xs.foldl (fun (st : StatStore σ) x => Function.update st x.name (some x.saved)) store name = store name := by
  induction xs generalizing store with
  | nil => rfl
  | cons x xs ih =>
    rw [List.map_cons, List.mem_cons, not_or] at h
    rw [List.foldl_cons, ih h.2, Function.update_of_ne h.1]

/-- **`persist`** saves every entry under its name. -/
theorem persist_get (r : Registry σ ε) (hnames : r.names.Nodup) (store : StatStore σ)
    {e : Entry σ ε} (he : e ∈ r.entries) : r.persist store e.name = some e.saved := by
  have hloop : ∀ (xs : List (Entry σ ε)), (xs.map Entry.name).Nodup → e ∈ xs →
      ∀ st : StatStore σ,
        xs.foldl (fun (st : StatStore σ) x => Function.update st x.name (some x.saved)) st e.name =
          some e.saved := by
    intro xs
    induction xs with
    | nil => exact fun _ hmem => absurd hmem List.not_mem_nil
    | cons x xs ih =>
      intro hnodup hmem st
      rw [List.map_cons, List.nodup_cons] at hnodup
      rw [List.foldl_cons]
      rcases List.mem_cons.mp hmem with rfl | hmem'
      · rw [foldl_update_of_notMem hnodup.1, Function.update_self]
      · exact ih hnodup.2 hmem' _
  exact hloop r.entries hnames he store

/-- Checkpoints leave the analyses what they are. -/
theorem analyses_load (as : List (DynAnalysis σ ε)) (ext : ε) (now : ℕ) (store : StatStore σ) :
    ((ofAnalyses as ext).load now store).entries.map Entry.analysis = as := by
  rw [load, attachAll, ofAnalyses, List.map_map, List.map_map, List.map_map]
  calc as.map _ = as.map id := by
        apply List.map_congr_left
        intro a _
        exact (Entry.new a).analysis_load now (store a.name)
    _ = as := List.map_id as

/-- A registry that starts on checkpoints. -/
theorem bounded_load {as : List (DynAnalysis σ ε)} {ext : ε} {now : ℕ} {store : StatStore σ}
    (hstore : ∀ a ∈ as, ∀ sv, store a.name = some sv → sv.Bounded all a) :
    ((ofAnalyses as ext).load now store).entries.map Entry.analysis = as ∧
      ∀ e ∈ ((ofAnalyses as ext).load now store).entries, e.Bounded all := by
  refine ⟨analyses_load as ext now store, ?_⟩
  intro e he
  rw [load, attachAll, ofAnalyses, List.map_map, List.map_map] at he
  obtain ⟨a, ha, rfl⟩ := List.mem_map.mp he
  exact (Entry.bounded_load now (hstore a ha)).attach ext

/-- What a reset leaves is what was there, or new. -/
theorem bounded_resetWhere {r : Registry σ ε} (p : Entry σ ε → Bool)
    (h : ∀ e ∈ r.entries, e.Bounded all) :
    (r.resetWhere p).entries.map Entry.analysis = r.entries.map Entry.analysis ∧
      ∀ e ∈ (r.resetWhere p).entries, e.Bounded all := by
  constructor
  · rw [resetWhere, List.map_map]
    apply List.map_congr_left
    intro e _
    rw [Function.comp]
    split <;> rfl
  · intro e he
    rw [resetWhere] at he
    obtain ⟨e₀, he₀, rfl⟩ := List.mem_map.mp he
    split
    · exact Entry.bounded_new _
    · exact h e₀ he₀

theorem bounded_attachAll {r : Registry σ ε} (h : ∀ e ∈ r.entries, e.Bounded all) :
    r.attachAll.entries.map Entry.analysis = r.entries.map Entry.analysis ∧
      ∀ e ∈ r.attachAll.entries, e.Bounded all := by
  constructor
  · rw [attachAll, List.map_map]
    rfl
  · intro e he
    rw [attachAll] at he
    obtain ⟨e₀, he₀, rfl⟩ := List.mem_map.mp he
    exact (h e₀ he₀).attach r.ext

/-- A file is done for a stage as long as no rebuild moves. -/
theorem Still.fileDoneFor {r r' : Registry σ ε} (h : Still r r') (stage : List ℕ)
    (file : String) : r'.fileDoneFor stage file = r.fileDoneFor stage file := by
  unfold Registry.fileDoneFor
  congr 1
  funext i
  cases he : r.entries[i]? with
  | none =>
    have he' : r'.entries[i]? = none := by
      rw [List.getElem?_eq_none_iff, h.1, ← List.getElem?_eq_none_iff, he]
    rw [he']
  | some e =>
    obtain ⟨e', he', hmoved⟩ := h.forth he
    rw [he', Option.all_some, Option.all_some, hmoved.needsBackfill, hmoved.rebuild]

end Registry

end NostrSearch.Stats
