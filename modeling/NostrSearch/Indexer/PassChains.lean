import NostrSearch.Indexer.PassPlan
import NostrSearch.Stats.Layering

/-!
# Passes and chains

The passes of a replay are the layers of the pending analyses: the pass of one is as long as the
longest chain of pending analyses that leads to it. `planReplay_chains` is what this comes to for
the plan as a whole. An analysis that is not pending may have a pass behind the last one, and is
moved into the last.
-/

namespace NostrSearch.Indexer.Pipeline

open NostrSearch.Core NostrSearch.Stats NostrSearch.Indexer NostrSearch.Lib

variable {σ ε : Type} {r : Registry σ ε} {p : Pipeline σ ε} {stages : List (List ℕ)}

/-- A pending analysis depends on a pending one. -/
def PendingDep (r : Registry σ ε) (d i : ℕ) : Prop :=
  r.DependsOn d i ∧ r.pending d = true ∧ r.pending i = true

/-- The passes of the pending analyses are their layers. -/
theorem Planned.layered {plan : List (List ℕ)} {passOf : ℕ → ℕ} (h : Planned r plan passOf) :
    Layered (PendingDep r) fun i => if r.pending i = true then passOf i else 0 := by
  constructor
  · rintro d i ⟨⟨e, e', he, he', hdep⟩, hd, hi⟩
    rw [if_pos hd, if_pos hi]
    exact h.dep_lt i e he d e' he' hdep hd
  · intro i hpos
    split at hpos
    case isFalse => exact absurd hpos (lt_irrefl 0)
    case isTrue hi =>
      obtain ⟨e, d, e', he, he', hdep, hd, hbehind⟩ := h.behind i hpos
      refine ⟨d, ⟨⟨e, e', he, he', hdep⟩, hd, hi⟩, ?_⟩
      rw [if_pos hi, if_pos hd]
      exact hbehind

/-- `passCount` is reached by a pending analysis, unless there is none. -/
theorem passCount_reached (r : Registry σ ε) (passOf : List ℕ) :
    (∃ i, r.pending i = true ∧ passOf.getD i 0 + 1 = passCount r passOf) ∨
      (∀ i, r.pending i = false) ∧ passCount r passOf = 1 := by
  unfold passCount
  split
  case h_1 hnil =>
    refine Or.inr ⟨fun i => ?_, rfl⟩
    rw [← Bool.not_eq_true]
    intro hi
    have hmem : i ∈ r.all.filter r.pending :=
      List.mem_filter.mpr ⟨List.mem_range.mpr (lt_of_pending hi), hi⟩
    rw [List.map_eq_nil_iff.mp hnil] at hmem
    exact List.not_mem_nil hmem
  case h_2 n ns hcons =>
    have hmem : ns.foldl max n ∈ (r.all.filter r.pending).map fun i => passOf.getD i 0 + 1 := by
      rw [hcons]
      rcases foldl_max_mem ns n with hn | hns
      · rw [hn]
        exact List.mem_cons_self
      · exact List.mem_cons_of_mem _ hns
    obtain ⟨i, hi, hpass⟩ := List.mem_map.mp hmem
    exact Or.inl ⟨i, (List.mem_filter.mp hi).2, hpass⟩

theorem nodup_flatten_plan (hstages : p.registry.stages = .ok stages) :
    (p.planReplay.1).stages.flatten.Nodup := by
  rw [List.nodup_flatten]
  constructor
  · intro pass hpass
    obtain ⟨k, hk⟩ := List.mem_iff_getElem?.mp hpass
    have hnodup := nodup_plan hstages k
    rwa [List.getD_eq_getElem?_getD, hk, Option.getD_some] at hnodup
  · rw [List.pairwise_iff_getElem]
    intro k l hk hl hkl i hi hi'
    have hget : ∀ m (hm : m < (p.planReplay.1).stages.length),
        (p.planReplay.1).stages[m] = (p.planReplay.1).stages.getD m [] := by
      intro m hm
      rw [List.getD_eq_getElem?_getD, List.getElem?_eq_getElem hm, Option.getD_some]
    rw [hget k hk, mem_plan hstages] at hi
    rw [hget l hl, mem_plan hstages] at hi'
    omega

theorem mem_flatten_plan (hstages : p.registry.stages = .ok stages) {i : ℕ} :
    i ∈ (p.planReplay.1).stages.flatten ↔ i < p.registry.entries.length := by
  rw [List.mem_flatten]
  constructor
  · rintro ⟨pass, hpass, hi⟩
    obtain ⟨k, hk⟩ := List.mem_iff_getElem?.mp hpass
    have hmem : i ∈ (p.planReplay.1).stages.getD k [] := by
      rwa [List.getD_eq_getElem?_getD, hk, Option.getD_some]
    exact ((mem_plan hstages).mp hmem).1
  · intro hi
    have hpos := passCount_pos p.registry (passOf p.registry stages)
    have hmem := (mem_plan hstages).mpr ⟨hi, rfl⟩
    have hlt : min ((passOf p.registry stages).getD i 0)
        (passCount p.registry (passOf p.registry stages) - 1) < (p.planReplay.1).stages.length := by
      rw [length_plan hstages]
      omega
    rw [List.getD_eq_getElem?_getD, List.getElem?_eq_getElem hlt, Option.getD_some] at hmem
    exact ⟨_, List.getElem_mem hlt, hmem⟩

/-- **What `planReplay` does** when the dependencies are in order. Every analysis is in one pass,
once; a pending one is behind each pending one it depends on; only who is not pending is in another
pass than `passOf` has it in; and there is one pass more than the longest chain of pending analyses
has links, which is one pass where none is pending. -/
theorem planReplay_chains (hstages : p.registry.stages = .ok stages)
    (hnames : p.registry.names.Nodup) :
    (∀ i, (p.planReplay.1).stages.flatten.count i =
        if i < p.registry.entries.length then 1 else 0) ∧
      (∀ d i k l, PendingDep p.registry d i → d ∈ (p.planReplay.1).stages.getD k [] →
        i ∈ (p.planReplay.1).stages.getD l [] → k < l) ∧
      (∀ i k, i ∈ (p.planReplay.1).stages.getD k [] →
        (passOf p.registry stages).getD i 0 ≠ k → p.registry.pending i = false) ∧
      p.planReplay.2 = (p.planReplay.1).stages.length ∧
      ((∀ i, p.registry.pending i = false) → p.planReplay.2 = 1) ∧
      ((∃ i, p.registry.pending i = true) →
        ∃ n, p.planReplay.2 = 1 + n ∧
          IsGreatest {n | ∃ i, p.registry.pending i = true ∧ ChainTo (PendingDep p.registry) n i}
            n) := by
  have hpasses : p.planReplay.2 = passCount p.registry (passOf p.registry stages) := by
    rw [Pipeline.planReplay, hstages]
  have hplanned := planned_passOf hstages hnames
  refine ⟨fun i => ?_, ?_, ?_, by rw [hpasses, length_plan hstages], ?_, ?_⟩
  · simp only [(nodup_flatten_plan hstages).count, mem_flatten_plan hstages]
  · -- both are pending, so they are in the passes that were computed for them
    rintro d i k l ⟨⟨e, e', he, he', hdep⟩, hd, hi⟩ hk hl
    rw [← (mem_plan_pending hstages hd).mp hk, ← (mem_plan_pending hstages hi).mp hl]
    exact hplanned.dep_lt i e he d e' he' hdep hd
  · intro i k hk hne
    rw [← Bool.not_eq_true]
    exact fun hi => hne ((mem_plan_pending hstages hi).mp hk)
  · intro hnone
    rcases passCount_reached p.registry (passOf p.registry stages) with ⟨i, hi, -⟩ | ⟨-, hone⟩
    · rw [hnone i] at hi
      cases hi
    · rw [hpasses, hone]
  · rintro ⟨j, hj⟩
    rcases passCount_reached p.registry (passOf p.registry stages) with ⟨i, hi, hlast⟩ | ⟨hnone, -⟩
    · have hlayer : ∀ i, p.registry.pending i = true →
          (if p.registry.pending i = true then (passOf p.registry stages).getD i 0 else 0) =
            (passOf p.registry stages).getD i 0 := fun i hi => if_pos hi
      refine ⟨(passOf p.registry stages).getD i 0, by omega, ⟨i, hi, ?_⟩, ?_⟩
      · have hchain := hplanned.layered.chainTo i
        rwa [hlayer i hi] at hchain
      · -- a longer chain would end in a later pass than the last
        rintro n ⟨i', hi', hchain⟩
        have hle := hplanned.layered.le_of_chainTo hchain
        have hlt := lt_passCount (passOf p.registry stages) hi'
        rw [hlayer i' hi'] at hle
        omega
    · rw [hnone j] at hj
      cases hj

section replaying

/-- An analysis that only says what it depends on. -/
private def declares (name : String) (deps : List String) : DynAnalysis Unit Unit :=
  { name := name, epoch := 0, deps := deps, refreshInterval := none, kinds := none
    default := (), attach := fun _ s => s, observe := fun _ _ _ s => (s, (), true)
    refresh := fun _ s => s, contribute := fun _ w => w, onReset := fun _ _ => ()
    restored := fun s => s }

/-- The last of three analyses in a row is derived already. -/
private def replaying : Pipeline Unit Unit :=
  { registry :=
      { entries := [Entry.new (declares "follow_graph" []),
          Entry.new (declares "pagerank" ["follow_graph"]),
          (Entry.new (declares "clients" ["pagerank"])).markBackfilled]
        totalEvents := 0, ext := () }
    world := World.empty, store := none
    cfg := { wotRefreshEvery := 1000, minRefreshInterval := 0, persistInterval := 0 }
    live := true, stages := [[0], [1], [2]], pass := 0, sinceRefresh := 0, lastRefresh := 0
    lastPersist := 0, refreshedOnce := false }

/-- Two passes, and who is derived already goes in the last. -/
theorem replay_of_three :
    replaying.registry.stages = .ok [[0], [1], [2]] ∧
      (replaying.planReplay.1).stages = [[0], [1, 2]] ∧
      ∃ n, 2 = 1 + n ∧ IsGreatest {n | ∃ i, replaying.registry.pending i = true ∧
        ChainTo (PendingDep replaying.registry) n i} n := by
  have hstages : replaying.registry.stages = .ok [[0], [1], [2]] := by decide +kernel
  have hnames : replaying.registry.names.Nodup := by decide
  have hlast := (planReplay_chains hstages hnames).2.2.2.2.2 ⟨0, by decide⟩
  exact ⟨hstages, by decide +kernel, hlast⟩

end replaying

end NostrSearch.Indexer.Pipeline
