import NostrSearch.Stats.Registry

/-!
# Dependency stages

`stages` places an analysis in the stage after the last of its dependencies, in rounds, until a
round places none. `stages_staged` is what a successful staging is: every entry is in exactly
one stage, in the order of the entries, and each of its dependencies is the name of an entry in
an earlier one.
-/

namespace NostrSearch.Stats.Registry

open NostrSearch.Core NostrSearch.Stats

variable {σ ε : Type} {r : Registry σ ε}

/-- `stageOf` says in which stage each entry is. -/
structure Staged (r : Registry σ ε) (stages : List (List ℕ)) (stageOf : ℕ → ℕ) : Prop where
  lt : ∀ i, i < r.entries.length → stageOf i < stages.length
  get : ∀ s, s < stages.length →
    stages[s]? = some ((List.range r.entries.length).filter fun i => stageOf i = s)
  deps : ∀ i e, r.entries[i]? = some e → ∀ dep ∈ e.analysis.deps,
    ∃ d e', r.entries[d]? = some e' ∧ e'.name = dep ∧ stageOf d < stageOf i

theorem names_getElem (r : Registry σ ε) (i : ℕ) : r.names[i]? = r.entries[i]?.map Entry.name := by
  rw [names, List.getElem?_map]

/-- Of entries with distinct names, a name has one place. -/
theorem eq_of_name (hnames : r.names.Nodup) {i j : ℕ} {e e' : Entry σ ε}
    (he : r.entries[i]? = some e) (he' : r.entries[j]? = some e') (h : e.name = e'.name) :
    i = j := by
  have hi : r.names[i]? = some e.name := by rw [r.names_getElem, he, Option.map_some]
  have hj : r.names[j]? = some e.name := by rw [r.names_getElem, he', Option.map_some, h]
  have hlt : i < r.names.length := (List.getElem?_eq_some_iff.mp hi).1
  exact (List.getElem?_inj hlt hnames).mp (hi.trans hj.symm)

theorem nameToIdx_some {name : String} {d : ℕ} (h : r.nameToIdx name = some d) :
    ∃ e, r.entries[d]? = some e ∧ e.name = name := by
  have hname := List.find?_some h
  have hget : r.names[d]? = some name := of_decide_eq_true hname
  rw [names_getElem, Option.map_eq_some_iff] at hget
  exact hget

/-- A ready analysis goes behind all of its dependencies. -/
theorem readyStage_some {analysis : String} {stageOf : List (Option ℕ)} {deps : List String}
    {next s : ℕ} (h : r.readyStage analysis stageOf deps next = .ok (some s)) :
    next ≤ s ∧ ∀ dep ∈ deps, ∃ d s', r.nameToIdx dep = some d ∧
      stageOf.getD d none = some s' ∧ s' < s := by
  induction deps generalizing next with
  | nil =>
    rw [readyStage, Except.ok.injEq, Option.some.injEq] at h
    exact ⟨le_of_eq h, fun dep hdep => absurd hdep List.not_mem_nil⟩
  | cons dep deps ih =>
    rw [readyStage] at h
    cases hd : r.nameToIdx dep with
    | none =>
      rw [hd] at h
      cases h
    | some d =>
      simp only [hd] at h
      cases hs : stageOf.getD d none with
      | none =>
        simp only [hs] at h
        cases h
      | some s' =>
        simp only [hs] at h
        obtain ⟨hle, hdeps⟩ := ih h
        refine ⟨by omega, ?_⟩
        intro dep' hdep'
        rcases List.mem_cons.mp hdep' with rfl | hmem
        · exact ⟨d, s', hd, hs, by omega⟩
        · exact hdeps dep' hmem

/-- What the placed entries satisfy at any time: they stand behind their dependencies, which are
placed as well. -/
def Placed (r : Registry σ ε) (stageOf : List (Option ℕ)) : Prop :=
  stageOf.length = r.entries.length ∧
    ∀ i s e, stageOf.getD i none = some s → r.entries[i]? = some e → ∀ dep ∈ e.analysis.deps,
      ∃ d s', r.nameToIdx dep = some d ∧ stageOf.getD d none = some s' ∧ s' < s

theorem getD_set_self {stageOf : List (Option ℕ)} {i : ℕ} (h : i < stageOf.length)
    (v : Option ℕ) : (stageOf.set i v).getD i none = v := by
  rw [List.getD_eq_getElem?_getD, List.getElem?_set_self h, Option.getD_some]

theorem getD_set_of_ne {stageOf : List (Option ℕ)} {i j : ℕ} (h : i ≠ j) (v : Option ℕ) :
    (stageOf.set i v).getD j none = stageOf.getD j none := by
  rw [List.getD_eq_getElem?_getD, List.getElem?_set_ne h, List.getD_eq_getElem?_getD]

theorem Placed.set {stageOf : List (Option ℕ)} (h : Placed r stageOf) {i s : ℕ} {e : Entry σ ε}
    (he : r.entries[i]? = some e) (hi : stageOf.getD i none = none)
    (hready : r.readyStage e.name stageOf e.analysis.deps 0 = .ok (some s)) :
    Placed r (stageOf.set i (some s)) := by
  have hlt : i < stageOf.length := by
    rw [h.1]
    exact (List.getElem?_eq_some_iff.mp he).1
  -- what is placed stays where it is
  have hkeep : ∀ d s', stageOf.getD d none = some s' →
      (stageOf.set i (some s)).getD d none = some s' := by
    intro d s' hd
    have hne : i ≠ d := by
      rintro rfl
      rw [hi] at hd
      cases hd
    rw [getD_set_of_ne hne, hd]
  refine ⟨by rw [List.length_set, h.1], ?_⟩
  intro j t e' hj he' dep hdep
  by_cases hij : i = j
  · subst hij
    rw [getD_set_self hlt, Option.some.injEq] at hj
    subst hj
    rw [he, Option.some.injEq] at he'
    subst he'
    obtain ⟨d, s', hd, hs', hlt'⟩ := (readyStage_some hready).2 dep hdep
    exact ⟨d, s', hd, hkeep d s' hs', hlt'⟩
  · rw [getD_set_of_ne hij] at hj
    obtain ⟨d, s', hd, hs', hlt'⟩ := h.2 j t e' hj he' dep hdep
    exact ⟨d, s', hd, hkeep d s' hs', hlt'⟩

section keeps

variable {P : List (Option ℕ) → Prop}

/-- What every placement keeps, a round keeps. -/
theorem stagesRound_keeps
    (hset : ∀ stageOf i s e, P stageOf → r.entries[i]? = some e → stageOf.getD i none = none →
      r.readyStage e.name stageOf e.analysis.deps 0 = .ok (some s) → P (stageOf.set i (some s)))
    {is : List ℕ} {stageOf : List (Option ℕ)} {progressed : Bool}
    {acc' : List (Option ℕ) × Bool} (h : P stageOf)
    (hround : r.stagesRound is (stageOf, progressed) = .ok acc') : P acc'.1 := by
  induction is generalizing stageOf progressed with
  | nil =>
    cases hround
    exact h
  | cons i is ih =>
    rw [Registry.stagesRound] at hround
    split at hround
    case h_1 e he hi =>
      split at hround
      · cases hround
      case h_2 s hready => exact ih (hset _ _ _ _ h he hi hready) hround
      · exact ih h hround
    · exact ih h hround

/-- And all the rounds keep it. -/
theorem stagesLoop_keeps
    (hset : ∀ stageOf i s e, P stageOf → r.entries[i]? = some e → stageOf.getD i none = none →
      r.readyStage e.name stageOf e.analysis.deps 0 = .ok (some s) → P (stageOf.set i (some s)))
    {rounds : ℕ} {stageOf stageOf' : List (Option ℕ)} (h : P stageOf)
    (hloop : r.stagesLoop rounds stageOf = .ok stageOf') : P stageOf' := by
  induction rounds generalizing stageOf with
  | zero =>
    cases hloop
    exact h
  | succ rounds ih =>
    rw [Registry.stagesLoop] at hloop
    split at hloop
    · cases hloop
    case h_2 next progressed hround =>
      have hnext : P next := stagesRound_keeps hset h hround
      split at hloop
      · exact ih hnext hloop
      · cases hloop
        exact hnext

end keeps

theorem placed_none (r : Registry σ ε) :
    Placed r (List.replicate r.entries.length none) := by
  refine ⟨List.length_replicate, ?_⟩
  intro i s e hi
  rw [List.getD_eq_getElem?_getD, List.getElem?_replicate] at hi
  split at hi <;> cases hi

/-- The stages are read off the places, when every entry has one. -/
theorem stages_eq_ok {stages : List (List ℕ)} : r.stages = .ok stages ↔
    ∃ stageOf, r.stagesLoop r.entries.length (List.replicate r.entries.length none) = .ok stageOf ∧
      none ∉ stageOf ∧
      stages = (List.range ((stageOf.filterMap id).foldl max 0 + 1)).map fun s =>
        (List.range r.entries.length).filter fun i => stageOf.getD i none = some s := by
  rw [Registry.stages]
  cases hloop : r.stagesLoop r.entries.length (List.replicate r.entries.length none) with
  | error err =>
    constructor
    · nofun
    · rintro ⟨stageOf, h, -⟩
      cases h
  | ok stageOf =>
    dsimp only
    constructor
    · intro h
      split at h
      · cases h
      case isFalse hnone =>
        cases h
        exact ⟨stageOf, rfl, hnone, rfl⟩
    · rintro ⟨stageOf', h, hnone, rfl⟩
      cases h
      rw [if_neg hnone]

/-- Where every entry has a place. -/
theorem exists_place {stageOf : List (Option ℕ)} (hlength : stageOf.length = r.entries.length)
    (hnone : none ∉ stageOf) {i : ℕ} (hi : i < r.entries.length) :
    ∃ s, stageOf.getD i none = some s := by
  rw [← hlength] at hi
  have hmem : stageOf.getD i none ∈ stageOf := by
    rw [List.getD_eq_getElem?_getD, List.getElem?_eq_getElem hi, Option.getD_some]
    exact List.getElem_mem hi
  cases hs : stageOf.getD i none with
  | none =>
    rw [hs] at hmem
    exact absurd hmem hnone
  | some s => exact ⟨s, rfl⟩

theorem placed_of_loop {stageOf : List (Option ℕ)}
    (h : r.stagesLoop r.entries.length (List.replicate r.entries.length none) = .ok stageOf) :
    Placed r stageOf :=
  stagesLoop_keeps (fun _ _ _ _ h he hi hready => Placed.set h he hi hready) (placed_none r) h

/-- Places that are in order are a staging. -/
theorem Placed.staged {stageOf : List (Option ℕ)} (hplaced : Placed r stageOf)
    (hnone : none ∉ stageOf) :
    Staged r ((List.range ((stageOf.filterMap id).foldl max 0 + 1)).map fun s =>
      (List.range r.entries.length).filter fun i => stageOf.getD i none = some s)
      fun i => (stageOf.getD i none).getD 0 := by
  have hsome : ∀ i, i < r.entries.length → ∃ s, stageOf.getD i none = some s :=
    fun i hi => exists_place hplaced.1 hnone hi
  -- no place is behind the last stage
  have hmax : ∀ i s, stageOf.getD i none = some s →
      s ≤ (stageOf.filterMap id).foldl max 0 := by
    intro i s hs
    have hmem : some s ∈ stageOf := by
      rw [List.getD_eq_getElem?_getD] at hs
      cases hget : stageOf[i]? with
      | none =>
        rw [hget] at hs
        cases hs
      | some v =>
        rw [hget, Option.getD_some] at hs
        rw [← hs]
        exact List.mem_of_getElem? hget
    have hmem' : s ∈ stageOf.filterMap id := List.mem_filterMap.mpr ⟨some s, hmem, rfl⟩
    exact le_foldl_max (Or.inr hmem')
  refine ⟨?_, ?_, ?_⟩
  · intro i hi
    obtain ⟨s, hs⟩ := hsome i hi
    have hle := hmax i s hs
    rw [List.length_map, List.length_range, hs, Option.getD_some]
    omega
  · intro s hs
    rw [List.length_map, List.length_range] at hs
    rw [List.getElem?_map, List.getElem?_range hs, Option.map_some, Option.some.injEq]
    apply List.filter_congr
    intro i hi
    obtain ⟨t, ht⟩ := hsome i (List.mem_range.mp hi)
    rw [ht, Option.getD_some]
    simp only [Option.some.injEq]
  · intro i e he dep hdep
    have hi : i < r.entries.length := (List.getElem?_eq_some_iff.mp he).1
    obtain ⟨s, hs⟩ := hsome i hi
    obtain ⟨d, s', hd, hs', hlt⟩ := hplaced.2 i s e hs he dep hdep
    obtain ⟨e', he', hname⟩ := nameToIdx_some hd
    refine ⟨d, e', he', hname, ?_⟩
    rw [hs, hs', Option.getD_some, Option.getD_some]
    exact hlt

/-- **What a staging is.** -/
theorem stages_staged {stages : List (List ℕ)} (h : r.stages = .ok stages) :
    ∃ stageOf, Staged r stages stageOf := by
  obtain ⟨stageOf, hloop, hnone, rfl⟩ := stages_eq_ok.mp h
  exact ⟨_, (placed_of_loop hloop).staged hnone⟩

namespace Staged

variable {stages : List (List ℕ)} {stageOf : ℕ → ℕ}

theorem eq_map (h : Staged r stages stageOf) :
    stages = (List.range stages.length).map fun s =>
      (List.range r.entries.length).filter fun i => stageOf i = s := by
  apply List.ext_getElem?
  intro s
  by_cases hs : s < stages.length
  · rw [h.get s hs, List.getElem?_map, List.getElem?_range hs, Option.map_some]
  · rw [List.getElem?_eq_none (Nat.le_of_not_lt hs), List.getElem?_eq_none]
    rw [List.length_map, List.length_range]
    exact Nat.le_of_not_lt hs

theorem mem_flatten (h : Staged r stages stageOf) {i : ℕ} :
    i ∈ stages.flatten ↔ i < r.entries.length := by
  rw [h.eq_map, List.mem_flatten]
  constructor
  · rintro ⟨l, hl, hi⟩
    obtain ⟨s, -, rfl⟩ := List.mem_map.mp hl
    exact List.mem_range.mp (List.mem_filter.mp hi).1
  · intro hi
    refine ⟨_, List.mem_map.mpr ⟨stageOf i, List.mem_range.mpr (h.lt i hi), rfl⟩, ?_⟩
    exact List.mem_filter.mpr ⟨List.mem_range.mpr hi, by simp⟩

theorem pairwise_flatten (h : Staged r stages stageOf) :
    stages.flatten.Pairwise fun i j => stageOf i ≤ stageOf j ∧ i ≠ j := by
  rw [h.eq_map, List.pairwise_flatten]
  constructor
  · intro l hl
    obtain ⟨s, -, rfl⟩ := List.mem_map.mp hl
    have hnodup : ((List.range r.entries.length).filter fun i => stageOf i = s).Nodup :=
      List.nodup_range.filter _
    refine List.Pairwise.imp_of_mem ?_ hnodup
    intro i j hi hj hne
    have hi' : stageOf i = s := by simpa using (List.mem_filter.mp hi).2
    have hj' : stageOf j = s := by simpa using (List.mem_filter.mp hj).2
    exact ⟨by omega, hne⟩
  · rw [List.pairwise_map]
    refine List.Pairwise.imp ?_ List.pairwise_lt_range
    intro s t hst i hi j hj
    have hi' : stageOf i = s := by simpa using (List.mem_filter.mp hi).2
    have hj' : stageOf j = t := by simpa using (List.mem_filter.mp hj).2
    refine ⟨by omega, ?_⟩
    rintro rfl
    omega

theorem nodup_flatten (h : Staged r stages stageOf) : stages.flatten.Nodup :=
  h.pairwise_flatten.imp fun h => h.2

end Staged

end NostrSearch.Stats.Registry
