import NostrSearch.Lib.Layers
import NostrSearch.Stats.Stages

/-!
# Stages are layers

An analysis depends on those whose names it gives. `stages` succeeds exactly when every name it
meets is that of an analysis and no analysis depends on itself through others; it then puts each of
them in the earliest stage that comes after all it depends on (`stages_layer`).

A round places every analysis whose dependencies have a place, and where no analysis depends on
itself there always is one: a round that places none finds none without a place (`stagesLoop_ends`).
-/

namespace NostrSearch.Stats.Registry

open NostrSearch.Core NostrSearch.Stats NostrSearch.Lib Relation

variable {σ ε : Type} {r : Registry σ ε}

/-- Entry `i` gives the name of entry `d` among its dependencies. -/
def DependsOn (r : Registry σ ε) (d i : ℕ) : Prop :=
  ∃ e e', r.entries[i]? = some e ∧ r.entries[d]? = some e' ∧ e'.name ∈ e.analysis.deps

/-- Every dependency is the name of an analysis. -/
def Closed (r : Registry σ ε) : Prop := ∀ e ∈ r.entries, ∀ dep ∈ e.analysis.deps, dep ∈ r.names

theorem nameToIdx_of_mem {name : String} (h : name ∈ r.names) : ∃ d, r.nameToIdx name = some d := by
  obtain ⟨i, hi⟩ := List.mem_iff_getElem?.mp h
  have hlt : i < r.entries.length := by
    have hlt := (List.getElem?_eq_some_iff.mp hi).1
    rwa [names, List.length_map] at hlt
  rw [← Option.isSome_iff_exists, nameToIdx, List.find?_isSome]
  exact ⟨i, List.mem_reverse.mpr (List.mem_range.mpr hlt), decide_eq_true hi⟩

/-! ## Placing an analysis -/

section ready

variable {analysis : String} {stageOf : List (Option ℕ)} {deps : List String} {next : ℕ}

theorem readyStage_ok (hdeps : ∀ dep ∈ deps, dep ∈ r.names) :
    ∃ place, r.readyStage analysis stageOf deps next = .ok place := by
  induction deps generalizing next with
  | nil => exact ⟨_, rfl⟩
  | cons dep deps ih =>
    obtain ⟨d, hd⟩ := nameToIdx_of_mem (hdeps dep List.mem_cons_self)
    rw [readyStage, hd]
    dsimp only
    split
    · exact ih fun dep' hdep' => hdeps dep' (List.mem_cons_of_mem _ hdep')
    · exact ⟨_, rfl⟩

/-- An analysis that is not ready waits for a dependency. -/
theorem readyStage_none (h : r.readyStage analysis stageOf deps next = .ok none) :
    ∃ dep ∈ deps, ∃ d, r.nameToIdx dep = some d ∧ stageOf.getD d none = none := by
  induction deps generalizing next with
  | nil => cases h
  | cons dep deps ih =>
    rw [readyStage] at h
    split at h
    · cases h
    case h_2 d hd =>
      split at h
      · obtain ⟨dep', hdep', hwaits⟩ := ih h
        exact ⟨dep', List.mem_cons_of_mem _ hdep', hwaits⟩
      case h_2 hnone => exact ⟨dep, List.mem_cons_self, d, hd, hnone⟩

/-- An analysis that is ready goes right behind a dependency, or where it may go at once. -/
theorem readyStage_behind {s : ℕ} (h : r.readyStage analysis stageOf deps next = .ok (some s)) :
    s = next ∨ ∃ dep ∈ deps, ∃ d s', r.nameToIdx dep = some d ∧
      stageOf.getD d none = some s' ∧ s' + 1 = s := by
  induction deps generalizing next with
  | nil =>
    rw [readyStage, Except.ok.injEq, Option.some.injEq] at h
    exact Or.inl h.symm
  | cons dep deps ih =>
    rw [readyStage] at h
    split at h
    · cases h
    case h_2 d hd =>
      split at h
      case h_2 => cases h
      case h_1 s' hs' =>
        rcases ih h with hmax | ⟨dep', hdep', hbehind⟩
        · rcases max_choice next (s' + 1) with hnext | hs
          · exact Or.inl (hmax.trans hnext)
          · exact Or.inr ⟨dep, List.mem_cons_self, d, s', hd, hs', (hmax.trans hs).symm⟩
        · exact Or.inr ⟨dep', List.mem_cons_of_mem _ hdep', hbehind⟩

end ready

/-! ## Rounds -/

/-- Who gets a place is one less without. -/
theorem count_none_set {stageOf : List (Option ℕ)} {i : ℕ} (hlt : i < stageOf.length)
    (hi : stageOf.getD i none = none) (s : ℕ) :
    (stageOf.set i (some s)).count none + 1 = stageOf.count none := by
  have hget : stageOf[i] = none := by
    rw [List.getD_eq_getElem?_getD, List.getElem?_eq_getElem hlt, Option.getD_some] at hi
    exact hi
  have hpos : 0 < stageOf.count none := List.count_pos_iff.mpr (hget ▸ List.getElem_mem hlt)
  rw [List.count_set hlt, hget]
  simp only [BEq.rfl, if_true, reduceCtorEq, beq_iff_eq, if_false]
  omega

/-- A round places somebody, or nobody is ready. -/
theorem stagesRound_spec (hclosed : r.Closed) {is : List ℕ} {stageOf : List (Option ℕ)}
    {progressed : Bool} (hlength : stageOf.length = r.entries.length) :
    ∃ stageOf' progressed', r.stagesRound is (stageOf, progressed) = .ok (stageOf', progressed') ∧
      stageOf'.length = r.entries.length ∧
      (progressed' = true ∧ stageOf'.count none < stageOf.count none ∨
        progressed' = progressed ∧ stageOf' = stageOf ∧ ∀ i ∈ is, ∀ e, r.entries[i]? = some e →
          stageOf.getD i none = none →
            r.readyStage e.name stageOf e.analysis.deps 0 = .ok none) := by
  induction is generalizing stageOf progressed with
  | nil => exact ⟨stageOf, progressed, rfl, hlength, Or.inr ⟨rfl, rfl, nofun⟩⟩
  | cons i is ih =>
    -- who has a place, or waits, is passed over
    have hskip (hself : ∀ e, r.entries[i]? = some e → stageOf.getD i none = none →
          r.readyStage e.name stageOf e.analysis.deps 0 = .ok none) :
        ∃ stageOf' progressed', r.stagesRound is (stageOf, progressed) =
            .ok (stageOf', progressed') ∧ stageOf'.length = r.entries.length ∧
          (progressed' = true ∧ stageOf'.count none < stageOf.count none ∨
            progressed' = progressed ∧ stageOf' = stageOf ∧ ∀ j ∈ i :: is, ∀ e,
              r.entries[j]? = some e → stageOf.getD j none = none →
                r.readyStage e.name stageOf e.analysis.deps 0 = .ok none) := by
      obtain ⟨stageOf', progressed', hround, hlength', hcases⟩ := @ih stageOf progressed hlength
      refine ⟨stageOf', progressed', hround, hlength', ?_⟩
      rcases hcases with hplaced | ⟨hsame, hstage, hnone⟩
      · exact Or.inl hplaced
      · refine Or.inr ⟨hsame, hstage, fun j hj => ?_⟩
        rcases List.mem_cons.mp hj with rfl | hin
        · exact hself
        · exact hnone j hin
    rw [stagesRound]
    split
    case h_1 e he hi =>
      obtain ⟨place, hplace⟩ := @readyStage_ok _ _ r e.name stageOf e.analysis.deps 0
        (hclosed e (List.mem_of_getElem? he))
      rw [hplace]
      cases place with
      | none =>
        apply hskip
        intro e' he' _
        rw [he] at he'
        cases he'
        exact hplace
      | some s =>
        have hlt : i < stageOf.length := by
          rw [hlength]
          exact (List.getElem?_eq_some_iff.mp he).1
        have hcount := count_none_set hlt hi s
        obtain ⟨stageOf', progressed', hround, hlength', hcases⟩ :=
          @ih (stageOf.set i (some s)) true (by rw [List.length_set, hlength])
        refine ⟨stageOf', progressed', hround, hlength', Or.inl ?_⟩
        rcases hcases with ⟨hprogressed, hlt'⟩ | ⟨hprogressed, rfl, -⟩
        · exact ⟨hprogressed, by omega⟩
        · exact ⟨hprogressed, by omega⟩
    case h_2 hnot => exact hskip fun e he hi => absurd hi (hnot e he)

/-- **As many rounds as there are entries are enough.** Who has no place after them waits for
another without one. -/
theorem stagesLoop_ends (hclosed : r.Closed) {rounds : ℕ} {stageOf : List (Option ℕ)}
    (hlength : stageOf.length = r.entries.length) (hrounds : stageOf.count none ≤ rounds) :
    ∃ stageOf', r.stagesLoop rounds stageOf = .ok stageOf' ∧
      stageOf'.length = r.entries.length ∧
      ∀ i e, r.entries[i]? = some e → stageOf'.getD i none = none →
        r.readyStage e.name stageOf' e.analysis.deps 0 = .ok none := by
  induction rounds generalizing stageOf with
  | zero =>
    refine ⟨stageOf, rfl, hlength, fun i e he hi => ?_⟩
    have hlt : i < stageOf.length := by
      rw [hlength]
      exact (List.getElem?_eq_some_iff.mp he).1
    rw [List.getD_eq_getElem?_getD, List.getElem?_eq_getElem hlt, Option.getD_some] at hi
    have hpos : 0 < stageOf.count none := List.count_pos_iff.mpr (hi ▸ List.getElem_mem hlt)
    omega
  | succ rounds ih =>
    obtain ⟨next, progressed, hround, hlength', hcases⟩ :=
      @stagesRound_spec _ _ r hclosed (List.range r.entries.length) stageOf false hlength
    rw [stagesLoop, hround]
    dsimp only
    rcases hcases with ⟨rfl, hlt⟩ | ⟨rfl, rfl, hnone⟩
    · rw [if_pos rfl]
      exact ih hlength' (by omega)
    · rw [if_neg Bool.false_ne_true]
      refine ⟨next, rfl, hlength, fun i e he hi => ?_⟩
      exact hnone i (List.mem_range.mpr (List.getElem?_eq_some_iff.mp he).1) e he hi

/-- Where the rounds end with somebody left, no analysis is the first of them. -/
theorem not_none_of_acyclic {stageOf : List (Option ℕ)}
    (hlength : stageOf.length = r.entries.length)
    (hacyclic : ∀ i, ¬ TransGen r.DependsOn i i)
    (hwaits : ∀ i e, r.entries[i]? = some e → stageOf.getD i none = none →
      r.readyStage e.name stageOf e.analysis.deps 0 = .ok none) : none ∉ stageOf := by
  intro hmem
  have hleft : ∀ i,
      i ∈ (Finset.range r.entries.length).filter (fun i => stageOf.getD i none = none) ↔
        i < r.entries.length ∧ stageOf.getD i none = none := by
    intro i
    rw [Finset.mem_filter, Finset.mem_range]
  obtain ⟨k, hk⟩ := List.mem_iff_getElem?.mp hmem
  have hk' : stageOf.getD k none = none := by
    rw [List.getD_eq_getElem?_getD, hk, Option.getD_some]
  have hlt : k < r.entries.length := hlength ▸ (List.getElem?_eq_some_iff.mp hk).1
  obtain ⟨i, hi, hfirst⟩ := exists_first hacyclic ⟨k, (hleft k).mpr ⟨hlt, hk'⟩⟩
  obtain ⟨hi, hnone⟩ := (hleft i).mp hi
  have he : r.entries[i]? = some r.entries[i] := List.getElem?_eq_getElem hi
  obtain ⟨dep, hdep, d, hd, hdnone⟩ := readyStage_none (hwaits i _ he hnone)
  obtain ⟨e', he', rfl⟩ := nameToIdx_some hd
  refine hfirst d ((hleft d).mpr ⟨(List.getElem?_eq_some_iff.mp he').1, hdnone⟩) ?_
  exact ⟨_, e', he, he', hdep⟩

/-! ## The stages -/

/-- Whoever has a place other than the first stands right behind somebody he depends on. -/
def Behind (r : Registry σ ε) (stageOf : List (Option ℕ)) : Prop :=
  stageOf.length = r.entries.length ∧
    ∀ i s, stageOf.getD i none = some s → 0 < s →
      ∃ d s', r.DependsOn d i ∧ stageOf.getD d none = some s' ∧ s' + 1 = s

theorem Behind.set {stageOf : List (Option ℕ)} (h : Behind r stageOf) {i s : ℕ} {e : Entry σ ε}
    (he : r.entries[i]? = some e) (hi : stageOf.getD i none = none)
    (hready : r.readyStage e.name stageOf e.analysis.deps 0 = .ok (some s)) :
    Behind r (stageOf.set i (some s)) := by
  have hlt : i < stageOf.length := by
    rw [h.1]
    exact (List.getElem?_eq_some_iff.mp he).1
  have hkeep : ∀ d s', stageOf.getD d none = some s' →
      (stageOf.set i (some s)).getD d none = some s' := by
    intro d s' hd
    have hne : i ≠ d := by
      rintro rfl
      rw [hi] at hd
      cases hd
    rw [getD_set_of_ne hne, hd]
  refine ⟨by rw [List.length_set, h.1], fun j t hj ht => ?_⟩
  by_cases hij : i = j
  · subst hij
    rw [getD_set_self hlt, Option.some.injEq] at hj
    subst hj
    rcases readyStage_behind hready with hzero | ⟨dep, hdep, d, s', hd, hs', hnext⟩
    · omega
    · obtain ⟨e', he', rfl⟩ := nameToIdx_some hd
      exact ⟨d, s', ⟨e, e', he, he', hdep⟩, hkeep d s' hs', hnext⟩
  · rw [getD_set_of_ne hij] at hj
    obtain ⟨d, s', hdep, hs', hnext⟩ := h.2 j t hj ht
    exact ⟨d, s', hdep, hkeep d s' hs', hnext⟩

theorem behind_none (r : Registry σ ε) : Behind r (List.replicate r.entries.length none) := by
  refine ⟨List.length_replicate, fun i s hi => ?_⟩
  rw [List.getD_eq_getElem?_getD, List.getElem?_replicate] at hi
  split at hi <;> cases hi

/-- The stages are the layers of the dependencies. -/
theorem stages_layered (hnames : r.names.Nodup) {stages : List (List ℕ)}
    (h : r.stages = .ok stages) :
    ∃ stageOf, Staged r stages stageOf ∧ Layered r.DependsOn stageOf := by
  obtain ⟨stageOf, hloop, hnone, rfl⟩ := stages_eq_ok.mp h
  have hstaged := (placed_of_loop hloop).staged hnone
  have hbehind : Behind r stageOf :=
    stagesLoop_keeps (fun _ _ _ _ h he hi hready => Behind.set h he hi hready) (behind_none r) hloop
  refine ⟨_, hstaged, ?_, ?_⟩
  · rintro d i ⟨e, e', he, he', hdep⟩
    obtain ⟨d', e'', he'', hname, hlt⟩ := hstaged.deps i e he e'.name hdep
    rw [eq_of_name hnames he' he'' hname.symm]
    exact hlt
  · intro i hpos
    cases hs : stageOf.getD i none with
    | none =>
      rw [hs] at hpos
      cases hpos
    | some s =>
      rw [hs, Option.getD_some] at hpos
      obtain ⟨d, s', hdep, hs', hnext⟩ := hbehind.2 i s hs hpos
      refine ⟨d, hdep, ?_⟩
      rw [hs', Option.getD_some, Option.getD_some]
      exact hnext

theorem closed_of_staged {stages : List (List ℕ)} {stageOf : ℕ → ℕ} (h : Staged r stages stageOf) :
    r.Closed := by
  intro e he dep hdep
  obtain ⟨i, hi⟩ := List.mem_iff_getElem?.mp he
  obtain ⟨d, e', he', rfl, -⟩ := h.deps i e hi dep hdep
  exact List.mem_map_of_mem (List.mem_of_getElem? he')

/-- Who is in a stage. -/
theorem Staged.mem_iff {stages : List (List ℕ)} {stageOf : ℕ → ℕ} (h : Staged r stages stageOf)
    {i s : ℕ} : i ∈ stages.getD s [] ↔ i < r.entries.length ∧ stageOf i = s := by
  rw [List.getD_eq_getElem?_getD]
  by_cases hs : s < stages.length
  · rw [h.get s hs, Option.getD_some, List.mem_filter, List.mem_range, decide_eq_true_eq]
  · rw [List.getElem?_eq_none (Nat.le_of_not_lt hs), Option.getD_none]
    refine iff_of_false List.not_mem_nil ?_
    rintro ⟨hi, rfl⟩
    exact hs (h.lt i hi)

/-- **What `stages` does.** It succeeds exactly when every dependency is that of an analysis and no
analysis depends on itself. Every analysis is then in one stage, once, behind all it depends on, and
the stage is the length of the longest chain of dependencies that leads to it. -/
theorem stages_layer (hnames : r.names.Nodup) :
    ((∃ stages, r.stages = .ok stages) ↔ r.Closed ∧ ∀ i, ¬ TransGen r.DependsOn i i) ∧
      ∀ stages, r.stages = .ok stages →
        (∀ i, stages.flatten.count i = if i < r.entries.length then 1 else 0) ∧
        (∀ d i s t, i ∈ stages.getD s [] → d ∈ stages.getD t [] → r.DependsOn d i → t < s) ∧
        ∀ i s, i ∈ stages.getD s [] → IsGreatest {n | ChainTo r.DependsOn n i} s := by
  refine ⟨⟨?_, ?_⟩, ?_⟩
  · rintro ⟨stages, h⟩
    obtain ⟨stageOf, hstaged, hlayered⟩ := stages_layered hnames h
    exact ⟨closed_of_staged hstaged, hlayered.acyclic⟩
  · rintro ⟨hclosed, hacyclic⟩
    obtain ⟨stageOf, hloop, hlength, hwaits⟩ := @stagesLoop_ends _ _ r hclosed r.entries.length
      (List.replicate r.entries.length none) List.length_replicate
      (List.count_le_length.trans (le_of_eq List.length_replicate))
    have hnone := not_none_of_acyclic hlength hacyclic hwaits
    exact ⟨_, stages_eq_ok.mpr ⟨stageOf, hloop, hnone, rfl⟩⟩
  · intro stages h
    obtain ⟨stageOf, hstaged, hlayered⟩ := stages_layered hnames h
    refine ⟨fun i => ?_, fun d i s t hi hd hdep => ?_, fun i s hi => ?_⟩
    · simp only [hstaged.nodup_flatten.count, hstaged.mem_flatten]
    · rw [← (hstaged.mem_iff.mp hi).2, ← (hstaged.mem_iff.mp hd).2]
      exact hlayered.lt d i hdep
    · rw [← (hstaged.mem_iff.mp hi).2]
      exact hlayered.isGreatest i

section chained

/-- An analysis that only says what it depends on. -/
private def named (name : String) (deps : List String) : DynAnalysis Unit Unit :=
  { name := name, epoch := 0, deps := deps, refreshInterval := none, kinds := none
    default := (), attach := fun _ s => s, observe := fun _ _ _ s => (s, (), true)
    refresh := fun _ s => s, contribute := fun _ w => w, onReset := fun _ _ => ()
    restored := fun s => s }

private def chained : Registry Unit Unit :=
  ofAnalyses [named "pagerank" ["follow_graph"], named "follow_graph" [], named "activity" []] ()

/-- One that depends on another goes behind it. -/
theorem stages_of_three :
    chained.names.Nodup ∧ chained.stages = .ok [[1, 2], [0]] ∧
      IsGreatest {n | ChainTo chained.DependsOn n 0} 1 := by
  have hnames : chained.names.Nodup := by decide
  have hstages : chained.stages = .ok [[1, 2], [0]] := by decide +kernel
  exact ⟨hnames, hstages, ((stages_layer hnames).2 _ hstages).2.2 0 1 (by decide)⟩

end chained

end NostrSearch.Stats.Registry
